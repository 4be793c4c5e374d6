import GuidedLab.Proofs.Tree.Growth

/-!
# Registers of pages

A tree that is a plain inductive value cannot be wrong about which page follows which. A *register*
can: it has an entry for each number, with the component of the page, the page that it follows and the
pages that follow it, and what one entry says of another is so only if it was written so. Here the calls
that make a tree are carried out in a register, write by write, and what was written when a fault comes
stays written.

A register *keeps* a tree when it has the entries of its pages. A call that the tree refuses ends in the
same fault in a register that keeps it, before anything is written (`Keeps.run_of_rejects`), and one that
is carried out leaves a register that keeps the new tree (`Keeps.exists_run`). So the register after
any calls keeps the tree after them (`Keeps.after`).
-/

namespace GuidedLab

/-- What is written of a page: its component, the page that it follows, and the pages that follow it, by
branch. -/
structure Register.Entry where
  component : Component
  parent? : Option Nat
  successors : List (UInt32 × Nat)
deriving DecidableEq

/-- The entries of pages under their numbers. -/
abbrev Register := Array Register.Entry

namespace Register

/-- Work in a register that may fail. -/
abbrev Work (α : Type) := ExceptT Fault (StateM Register) α

/-- The page that follows on a branch. -/
def Entry.successor? (e : Entry) (branch : UInt32) : Option Nat :=
  (e.successors.find? fun l => l.1 = branch).map Prod.snd

/-- The page that is written to be the one before. -/
def parent? (r : Register) (node : Nat) : Option Nat := r[node]?.bind Entry.parent?

/-- The page that is written to follow on a branch. -/
def successor? (r : Register) (node : Nat) (branch : UInt32) : Option Nat :=
  r[node]?.bind fun e => e.successor? branch

/-- The entry with one more page that follows. -/
def Entry.followedBy (branch : UInt32) (node : Nat) (e : Entry) : Entry :=
  { e with successors := Branches.insertLink (branch, node) e.successors }

/-- A register is written anew, with one page. -/
def new (root : Component) : Work Nat := do
  set #[(⟨root, none, []⟩ : Entry)]
  return 0

/-- A page is put on a branch of another page. Its number is answered. -/
def addBranch (origin : Nat) (branch : UInt32) (c : Component) : Work Nat := do
  let node := (← get).size
  match (← get)[origin]? with
  | none => throw (.noSuchNode (.ofNode origin))
  | some before =>
    match before.successor? branch with
    | some existing => throw (.branchTaken before.component.name existing branch)
    | none =>
      modify fun r => r.modify origin (Entry.followedBy branch node)
      modify fun r => r.push ⟨c, some origin, []⟩
      return node

/-- A page is put next after another, on the ordinary branch. -/
def addNext (origin : Nat) (c : Component) : Work Nat := addBranch origin 0 c

/-- A call is carried out. -/
def perform : Tree.Call → Work Nat
  | .new root => new root
  | .addNext origin c => addNext origin c
  | .addBranch origin branch c => addBranch origin branch c

/-- The register after calls, one after the other, whatever they end in. -/
def after (r : Register) (calls : List Tree.Call) : Register :=
  calls.foldl (fun r call => ((perform call).run r).2) r

end Register

namespace Tree

/-- The entry of a page. -/
def entryAt? (t : Tree) (node : Nat) : Option Register.Entry :=
  (t.component? node).map fun c => ⟨c, t.parent? node, t.successors node⟩

theorem entryAt?_eq_linked? (t : Tree) (node : Nat) :
    t.entryAt? node = (t.pages.linked? node).map fun page => ⟨page.1, t.parent? node, page.2⟩ := by
  rw [entryAt?, component?, successors, Branches.linked?]
  cases t.pages.find? node <;> rfl

theorem successor?_eq_find? (t : Tree) (node : Nat) (branch : UInt32) :
    t.successor? node branch = ((t.successors node).find? fun l => l.1 = branch).map Prod.snd := by
  rw [successor?, successors]
  cases t.pages.find? node <;> rfl

end Tree

namespace Register

/-- A register has the entries of a tree's pages, and no others. -/
def Keeps (r : Register) (t : Tree) : Prop := ∀ node, r[node]? = t.entryAt? node

variable {r : Register} {t u : Tree} {call : Tree.Call} {f : Fault} {origin node : Nat}
  {branch : UInt32} {c : Component} {e : Entry}

theorem perform_of_place? (h : call.place? = some (origin, branch)) :
    perform call = addBranch origin branch call.component := by
  cases call with
  | new root => cases h
  | addNext origin' c =>
      cases h
      rfl
  | addBranch origin' branch' c =>
      cases h
      rfl

/-- What is written when a page is put on a branch: nothing if it is refused, and otherwise a link in the
entry of the origin and an entry at the end. -/
theorem run_addBranch (origin : Nat) (branch : UInt32) (c : Component) (r : Register) :
    (addBranch origin branch c).run r =
      match r[origin]? with
      | none => (.error (.noSuchNode (.ofNode origin)), r)
      | some before =>
        match before.successor? branch with
        | some existing => (.error (.branchTaken before.component.name existing branch), r)
        | none =>
          (.ok r.size, (r.modify origin (Entry.followedBy branch r.size)).push ⟨c, some origin, []⟩) := by
  show (match r[origin]? with
    | none => _
    | some before => _ : Work Nat).run r = _
  cases r[origin]? with
  | none => rfl
  | some before =>
      dsimp only
      cases before.successor? branch <;> rfl

theorem successors_of_entryAt? (h : t.entryAt? node = some e) : e.successors = t.successors node := by
  obtain ⟨c, -, rfl⟩ := Option.map_eq_some_iff.1 h
  rfl

theorem successor?_of_entryAt? (h : t.entryAt? node = some e) (branch : UInt32) :
    e.successor? branch = t.successor? node branch := by
  rw [Entry.successor?, successors_of_entryAt? h, Tree.successor?_eq_find?]

theorem component?_of_entryAt? (h : t.entryAt? node = some e) :
    t.component? node = some e.component := by
  obtain ⟨c, hc, rfl⟩ := Option.map_eq_some_iff.1 h
  exact hc

theorem entryAt?_eq_none_iff : t.entryAt? node = none ↔ t.size ≤ node := by
  rw [Tree.entryAt?, Option.map_eq_none_iff, ← Option.not_isSome_iff_eq_none,
    Tree.component?_isSome_iff, Nat.not_lt]

theorem not_mem_of_entryAt? (h : t.entryAt? node = none) : node ∉ t.pages.nodes := by
  rw [t.sound.mem_nodes_iff]
  exact Nat.not_lt.2 (entryAt?_eq_none_iff.1 h)

theorem exists_entryAt? (h : node < t.size) : ∃ e, t.entryAt? node = some e :=
  Option.ne_none_iff_exists'.1 (mt entryAt?_eq_none_iff.1 (Nat.not_le.2 h))

/-- A page that is put in gets an entry, and the entry of the origin is followed by it. -/
theorem entryAt?_of_isGrown (h : t.IsGrown origin branch c u) (node : Nat) :
    u.entryAt? node =
      if node = t.size then some ⟨c, some origin, []⟩
      else (t.entryAt? node).map fun e => if node = origin then e.followedBy branch t.size else e := by
  rw [Tree.entryAt?_eq_linked?, Tree.entryAt?_eq_linked?, h.linked?_eq, h.parent?_eq]
  by_cases hnode : node = t.size
  · rw [if_pos hnode, if_pos hnode, if_pos hnode]
    rfl
  · rw [if_neg hnode, if_neg hnode, if_neg hnode, Option.map_map, Option.map_map]
    congr 1
    funext page
    by_cases ho : node = origin
    · simp only [Function.comp_apply, if_pos ho]
      rfl
    · simp only [Function.comp_apply, if_neg ho]

namespace Keeps

theorem empty : Keeps #[] Tree.empty := fun _ => rfl

theorem size_eq (h : r.Keeps t) : r.size = t.size := by
  apply eq_of_forall_ge_iff
  intro node
  rw [← Array.getElem?_eq_none_iff, h node, entryAt?_eq_none_iff]

theorem parent?_eq (h : r.Keeps t) (node : Nat) : r.parent? node = t.parent? node := by
  rw [parent?, h node]
  cases he : t.entryAt? node with
  | none =>
      rw [Option.bind_none, Tree.parent?, Branches.parent?_of_not_mem (not_mem_of_entryAt? he)]
  | some e =>
      obtain ⟨c, -, rfl⟩ := Option.map_eq_some_iff.1 he
      rfl

theorem successor?_eq (h : r.Keeps t) (node : Nat) (branch : UInt32) :
    r.successor? node branch = t.successor? node branch := by
  rw [successor?, h node]
  cases he : t.entryAt? node with
  | none =>
      rw [Option.bind_none, Tree.successor?, Branches.find?_eq_none_iff.2 (not_mem_of_entryAt? he),
        Option.bind_none]
  | some e => rw [Option.bind_some, successor?_of_entryAt? he]

theorem new (root : Component) : Keeps #[⟨root, none, []⟩] (Tree.new root) := by
  intro node
  cases node with
  | zero => rfl
  | succ node => rfl

/-- A call that the tree refuses ends in the same fault, and the register is as it was. -/
theorem run_of_rejects (h : r.Keeps t) (hf : t.Rejects call f) :
    (perform call).run r = (.error f, r) := by
  cases hf with
  | unknown place beyond =>
      have hnone : r[_]? = none := Array.getElem?_eq_none (h.size_eq ▸ beyond)
      rw [perform_of_place? place, run_addBranch, hnone]
  | taken place found occupied =>
      obtain ⟨e, he⟩ := exists_entryAt? (Tree.lt_size_of_component? found)
      obtain rfl := Option.some.inj (found.symm.trans (component?_of_entryAt? he))
      rw [perform_of_place? place, run_addBranch, h, he]
      dsimp only
      rw [successor?_of_entryAt? he, occupied]

/-- A call that the tree takes ends in the same number and leaves a register that keeps the new tree. -/
theorem exists_run (h : r.Keeps t) (hu : t.perform call = .ok (u, node)) :
    ∃ r', (perform call).run r = (.ok node, r') ∧ r'.Keeps u := by
  rcases t.perform_cases call with ⟨f, -, hf⟩ | ⟨root, rfl, hroot⟩ |
    ⟨origin, branch, v, place, grown, hv⟩
  · rw [hf] at hu
    cases hu
  · rw [hroot] at hu
    cases hu
    exact ⟨_, rfl, .new root⟩
  · rw [hv] at hu
    cases hu
    obtain ⟨e, he⟩ := exists_entryAt? grown.exists_origin
    refine ⟨(r.modify origin (Entry.followedBy branch t.size)).push ⟨call.component, some origin, []⟩,
      ?_, ?_⟩
    · rw [perform_of_place? place, run_addBranch, h, he]
      dsimp only
      rw [successor?_of_entryAt? he, grown.free, h.size_eq]
    · intro node
      rw [entryAt?_of_isGrown grown, Array.getElem?_push, Array.size_modify, h.size_eq,
        Array.getElem?_modify, h node]
      by_cases ho : origin = node
      · simp only [if_pos ho, if_pos ho.symm]
      · simp only [if_neg ho, if_neg (Ne.symm ho), Option.map_id']

/-- After a call, whatever it ends in, the register keeps the tree that is there. -/
theorem step (h : r.Keeps t) (call : Tree.Call) :
    Keeps ((perform call).run r).2 (t.step call) := by
  rw [Tree.step]
  cases hcall : t.perform call with
  | error f =>
      rw [h.run_of_rejects (Tree.perform_eq_error_iff.1 hcall)]
      exact h
  | ok grown =>
      obtain ⟨u, node⟩ := grown
      obtain ⟨r', hr, hkeeps⟩ := h.exists_run hcall
      rw [hr]
      exact hkeeps

/-- After calls, one after the other, the register keeps the tree that has come about. -/
theorem after (h : r.Keeps t) (calls : List Tree.Call) : (r.after calls).Keeps (t.after calls) := by
  induction calls generalizing r t with
  | nil => exact h
  | cons call calls ih => exact ih (h.step call)

end Keeps

end Register

end GuidedLab
