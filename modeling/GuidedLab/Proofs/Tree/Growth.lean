import Mathlib.Data.List.Sort
import GuidedLab.Proofs.Tree.Links

/-!
# Growing trees

A tree comes about by calls: it starts anew with a root, and pages are put next after a page or on a
branch of one. A call is refused if it names a page that does not exist or a branch that is taken, and
in no other case (`perform_eq_error_iff`).

A page that is put in changes little. `linked?` tells the value of a page and its links. Afterwards the
new page has no link, the origin has one link more, where its branch belongs, and every other page is as
it was (`IsGrown.linked?_eq`); the new page follows the origin, and every other page the page that it
followed (`IsGrown.parent?_eq`).
-/

namespace GuidedLab

namespace Branches

variable {α : Type} {t : Branches α} {origin node other : Nat} {branch : UInt32} {v : α}

/-- Links with one more, where its branch belongs. -/
def insertLink (l : UInt32 × Nat) (links : List (UInt32 × Nat)) : List (UInt32 × Nat) :=
  links.orderedInsert (fun a b => a.1 < b.1) l

theorem mem_insertLink_iff {l m : UInt32 × Nat} {links : List (UInt32 × Nat)} :
    m ∈ insertLink l links ↔ m = l ∨ m ∈ links :=
  List.mem_orderedInsert _

theorem links_place (branch : UInt32) (node : Nat) (v : α) (after t : Branches α) :
    (place branch node v after t).links = insertLink (branch, node) t.links := by
  induction t with
  | nil => rfl
  | cons c m w follow others _ iho =>
      rw [place, links_cons, insertLink, List.orderedInsert_cons]
      split
      · rfl
      · rw [links_cons, iho, insertLink]

/-- The value of a page and the links to the pages that follow it. -/
def linked? (node : Nat) (t : Branches α) : Option (α × List (UInt32 × Nat)) :=
  (t.find? node).map fun page => (page.1, page.2.links)

theorem linked?_cons (b : UInt32) (n : Nat) (v : α) (after others : Branches α) (node : Nat) :
    (cons b n v after others).linked? node =
      if n = node then some (v, after.links)
      else (after.linked? node).or (others.linked? node) := by
  rw [linked?, find?]
  split
  · rfl
  · rw [Option.map_or, linked?, linked?]

theorem linked?_of_not_mem (h : node ∉ t.nodes) : t.linked? node = none := by
  rw [linked?, find?_eq_none_iff.2 h, Option.map_none]

/-- A page among the branches of the place is found, and otherwise what was found before. -/
theorem linked?_place (h : node ∉ t.nodes) :
    (place branch node v nil t).linked? other =
      if other = node then some (v, []) else t.linked? other := by
  have hfront : ∀ u : Branches α, (cons branch node v nil u).linked? other =
      if other = node then some (v, []) else u.linked? other := by
    intro u
    rw [linked?_cons]
    by_cases hother : other = node
    · rw [if_pos hother.symm, if_pos hother]
      rfl
    · rw [if_neg (Ne.symm hother), if_neg hother]
      rfl
  induction t with
  | nil => exact hfront nil
  | cons c m w follow others _ iho =>
      rw [nodes_cons, List.mem_cons, List.mem_append, not_or, not_or] at h
      rw [place]
      split
      · exact hfront _
      · rw [linked?_cons, linked?_cons, iho h.2.2]
        by_cases hother : other = node
        · subst hother
          rw [if_neg (Ne.symm h.1), if_pos rfl, if_pos rfl, linked?_of_not_mem h.2.1, Option.none_or]
        · rw [if_neg hother, if_neg hother]

theorem linked?_grow_self (h : node ∉ t.nodes) (ho : origin ∈ t.nodes) :
    (t.grow origin branch node v).linked? node = some (v, []) := by
  induction t with
  | nil => cases ho
  | cons c m w after others iha iho =>
      rw [nodes_cons, List.mem_cons, List.mem_append, not_or, not_or] at h
      rw [nodes_cons, List.mem_cons, List.mem_append] at ho
      rw [grow]
      by_cases hm : m = origin
      · rw [if_pos hm, linked?_cons, if_neg (Ne.symm h.1), linked?_place h.2.1, if_pos rfl,
          Option.some_or]
      · rw [if_neg hm, linked?_cons, if_neg (Ne.symm h.1)]
        by_cases ha : origin ∈ after.nodes
        · rw [iha h.2.1 ha, Option.some_or]
        · have hothers : origin ∈ others.nodes :=
            (ho.resolve_left (Ne.symm hm)).resolve_left ha
          rw [grow_of_not_mem ha, linked?_of_not_mem h.2.1, Option.none_or, iho h.2.2 hothers]

/-- Of the pages that were there, the origin has one link more, and the others are as they were. -/
theorem linked?_grow_of_ne (h : node ∉ t.nodes) (hother : other ≠ node) :
    (t.grow origin branch node v).linked? other = (t.linked? other).map fun page =>
      (page.1, if other = origin then insertLink (branch, node) page.2 else page.2) := by
  induction t with
  | nil => rfl
  | cons c m w after others iha iho =>
      rw [nodes_cons, List.mem_cons, List.mem_append, not_or, not_or] at h
      rw [grow]
      by_cases hm : m = origin
      · -- the new page is placed among those after the origin, which do not grow any further
        rw [if_pos hm, linked?_cons, linked?_cons, linked?_place h.2.1, if_neg hother]
        by_cases hmo : m = other
        · rw [if_pos hmo, if_pos hmo, Option.map_some, if_pos (hmo.symm.trans hm), links_place]
        · have hid : other ≠ origin := fun he => hmo (hm.trans he.symm)
          simp only [if_neg hmo, if_neg hid, Option.map_id']
      · rw [if_neg hm, linked?_cons, linked?_cons]
        by_cases hmo : m = other
        · have hid : other ≠ origin := fun he => hm (hmo.trans he)
          rw [if_pos hmo, if_pos hmo, Option.map_some, if_neg hid, links_grow]
        · rw [if_neg hmo, if_neg hmo, Option.map_or, iha h.2.1, iho h.2.2]

theorem parent?_place_of_ne (hother : other ≠ node) (t : Branches α) (before : Option Nat) :
    (place branch node v nil t).parent? other before = t.parent? other before := by
  have hfront : ∀ u : Branches α,
      (cons branch node v nil u).parent? other before = u.parent? other before := by
    intro u
    rw [parent?, if_neg (Ne.symm hother), parent?, Option.none_or]
  induction t with
  | nil => exact hfront nil
  | cons c m w follow others _ iho =>
      rw [place]
      split
      · exact hfront _
      · rw [parent?, parent?, iho]

/-- A page that was there follows the page that it followed. -/
theorem parent?_grow_of_ne (hother : other ≠ node) (t : Branches α) (before : Option Nat) :
    (t.grow origin branch node v).parent? other before = t.parent? other before := by
  induction t generalizing before with
  | nil => rfl
  | cons c m w after others iha iho =>
      rw [grow]
      split
      · rw [parent?, parent?, parent?_place_of_ne hother]
      · rw [parent?, parent?, iha, iho]

end Branches

namespace Tree

/-- What is done to make a tree. -/
inductive Call where
  | new (root : Component)
  | addNext (origin : Nat) (c : Component)
  | addBranch (origin : Nat) (branch : UInt32) (c : Component)

/-- The page and the branch where a call puts a page; a root is put nowhere. -/
def Call.place? : Call → Option (Nat × UInt32)
  | .new _ => none
  | .addNext origin _ => some (origin, 0)
  | .addBranch origin branch _ => some (origin, branch)

/-- The component of the page that a call makes. -/
def Call.component : Call → Component
  | .new root => root
  | .addNext _ c => c
  | .addBranch _ _ c => c

/-- The tree after a call and the number of the new page. -/
def perform (t : Tree) : Call → Except Fault (Tree × Nat)
  | .new root => .ok (new root, 0)
  | .addNext origin c => t.addNext origin c
  | .addBranch origin branch c => t.addBranch origin branch c

/-- The tree after a call. If the call is refused, it is the tree that was there. -/
def step (t : Tree) (call : Call) : Tree :=
  match t.perform call with
  | .ok (u, _) => u
  | .error _ => t

/-- The tree after calls, one after the other. -/
def after (t : Tree) (calls : List Call) : Tree := calls.foldl step t

/-- Why a call is refused. -/
inductive Rejects (t : Tree) (call : Call) : Fault → Prop where
  | unknown {origin : Nat} {branch : UInt32} (place : call.place? = some (origin, branch))
      (beyond : t.size ≤ origin) : Rejects t call (.noSuchNode (.ofNode origin))
  | taken {origin existing : Nat} {branch : UInt32} {c : Component}
      (place : call.place? = some (origin, branch)) (found : t.component? origin = some c)
      (occupied : t.successor? origin branch = some existing) :
      Rejects t call (.branchTaken c.name existing branch)

/-- `u` is `t` with a page that was put on a free branch of a page that exists. -/
structure IsGrown (t : Tree) (origin : Nat) (branch : UInt32) (c : Component) (u : Tree) : Prop where
  exists_origin : origin < t.size
  free : t.successor? origin branch = none
  pages_eq : u.pages = t.pages.grow origin branch t.size c

variable {t u : Tree} {call : Call} {f : Fault} {origin node : Nat} {branch : UInt32}
  {c : Component}

theorem lt_size_of_component? (h : t.component? node = some c) : node < t.size :=
  component?_isSome_iff.1 (by rw [h]; rfl)

/-- What becomes of a page that is to be put on a branch. -/
theorem addBranch_cases (t : Tree) (origin : Nat) (branch : UInt32) (c : Component) :
    (t.size ≤ origin ∧ t.addBranch origin branch c = .error (.noSuchNode (.ofNode origin))) ∨
    (∃ d existing, t.component? origin = some d ∧ t.successor? origin branch = some existing ∧
      t.addBranch origin branch c = .error (.branchTaken d.name existing branch)) ∨
    ∃ u, t.IsGrown origin branch c u ∧ t.addBranch origin branch c = .ok (u, t.size) := by
  rw [addBranch]
  split
  · next hf =>
    rw [Branches.find?_eq_none_iff, t.sound.mem_nodes_iff, Nat.not_lt] at hf
    exact Or.inl ⟨hf, rfl⟩
  · next d after hf =>
    have hin : origin < t.size := t.sound.mem_nodes_iff.1 (Branches.mem_nodes_of_find? hf)
    have hs : t.successor? origin branch = (after.links.find? fun l => l.1 = branch).map Prod.snd := by
      rw [successor?, hf, Option.bind_some, Branches.link?]
    split
    · next b existing hl =>
      refine Or.inr (Or.inl ⟨d, existing, ?_, ?_, rfl⟩)
      · rw [component?, hf, Option.map_some]
      · rw [hs, hl, Option.map_some]
    · next hl =>
      refine Or.inr (Or.inr ⟨_, ⟨hin, ?_, rfl⟩, rfl⟩)
      rw [hs, hl, Option.map_none]

theorem perform_of_place? (h : call.place? = some (origin, branch)) (t : Tree) :
    t.perform call = t.addBranch origin branch call.component := by
  cases call with
  | new root => cases h
  | addNext origin' c =>
      cases h
      rfl
  | addBranch origin' branch' c =>
      cases h
      rfl

/-- What becomes of a call: it is refused, starts a tree or puts a page into one. -/
theorem perform_cases (t : Tree) (call : Call) :
    (∃ f, t.Rejects call f ∧ t.perform call = .error f) ∨
    (∃ root, call = .new root ∧ t.perform call = .ok (new root, 0)) ∨
    ∃ origin branch u, call.place? = some (origin, branch) ∧
      t.IsGrown origin branch call.component u ∧ t.perform call = .ok (u, t.size) := by
  cases hplace : call.place? with
  | none =>
      cases call with
      | new root => exact Or.inr (Or.inl ⟨root, rfl, rfl⟩)
      | addNext => cases hplace
      | addBranch => cases hplace
  | some place =>
      rw [perform_of_place? hplace]
      rcases t.addBranch_cases place.1 place.2 call.component with
        ⟨beyond, h⟩ | ⟨d, existing, found, occupied, h⟩ | ⟨u, hu, h⟩
      · exact Or.inl ⟨_, .unknown hplace beyond, h⟩
      · exact Or.inl ⟨_, .taken hplace found occupied, h⟩
      · exact Or.inr (Or.inr ⟨place.1, place.2, u, rfl, hu, h⟩)

theorem Rejects.perform_eq (h : t.Rejects call f) : t.perform call = .error f := by
  cases h with
  | @unknown origin branch hplace beyond =>
      rw [perform_of_place? hplace]
      rcases t.addBranch_cases origin branch call.component with
        ⟨-, h⟩ | ⟨d, -, found, -⟩ | ⟨u, hu, -⟩
      · exact h
      · exact absurd (lt_size_of_component? found) (Nat.not_lt.2 beyond)
      · exact absurd hu.exists_origin (Nat.not_lt.2 beyond)
  | @taken origin existing branch c hplace found occupied =>
      rw [perform_of_place? hplace]
      rcases t.addBranch_cases origin branch call.component with
        ⟨beyond, -⟩ | ⟨d, existing', found', occupied', h⟩ | ⟨u, hu, -⟩
      · exact absurd (lt_size_of_component? found) (Nat.not_lt.2 beyond)
      · rw [found] at found'
        rw [occupied] at occupied'
        cases found'
        cases occupied'
        exact h
      · rw [hu.free] at occupied
        cases occupied

/-- A call is refused in the cases of `Rejects` and in no other. -/
theorem perform_eq_error_iff : t.perform call = .error f ↔ t.Rejects call f := by
  constructor
  · intro h
    rcases t.perform_cases call with ⟨f', hf, h'⟩ | ⟨root, -, h'⟩ | ⟨_, _, u, -, -, h'⟩
    · rw [h'] at h
      cases h
      exact hf
    · rw [h'] at h
      cases h
    · rw [h'] at h
      cases h
  · exact Rejects.perform_eq

/-! ### What a new page changes -/

theorem successor?_eq_some_iff_linked? {next : Nat} :
    t.successor? node branch = some next ↔
      ∃ page, t.pages.linked? node = some page ∧ (branch, next) ∈ page.2 := by
  rw [successor?_eq_some_iff]
  constructor
  · rintro ⟨page, hf, hl⟩
    exact ⟨_, by rw [Branches.linked?, hf, Option.map_some], hl⟩
  · rintro ⟨page, hf, hl⟩
    obtain ⟨page', hf', rfl⟩ := Option.map_eq_some_iff.1 hf
    exact ⟨page', hf', hl⟩

/-- The next number is not in use. -/
theorem size_not_mem (t : Tree) : t.size ∉ t.pages.nodes := fun hin =>
  Nat.lt_irrefl _ (t.sound.mem_nodes_iff.1 hin)

namespace IsGrown

variable (h : t.IsGrown origin branch c u)

include h

theorem mem_origin : origin ∈ t.pages.nodes := t.sound.mem_nodes_iff.2 h.exists_origin

/-- The new page has no links, the origin one more, and every other page those that it had. -/
theorem linked?_eq (node : Nat) :
    u.pages.linked? node =
      if node = t.size then some (c, [])
      else (t.pages.linked? node).map fun page => (page.1,
        if node = origin then Branches.insertLink (branch, t.size) page.2 else page.2) := by
  rw [h.pages_eq]
  by_cases hnode : node = t.size
  · rw [if_pos hnode, hnode, Branches.linked?_grow_self t.size_not_mem h.mem_origin]
  · rw [if_neg hnode, Branches.linked?_grow_of_ne t.size_not_mem hnode]

theorem successor?_eq : u.successor? origin branch = some t.size := by
  have hne : origin ≠ t.size := Nat.ne_of_lt h.exists_origin
  obtain ⟨page, hf⟩ := Option.isSome_iff_exists.1 (Branches.find?_isSome_iff.2 h.mem_origin)
  have hlinked : t.pages.linked? origin = some (page.1, page.2.links) := by
    rw [Branches.linked?, hf, Option.map_some]
  rw [successor?_eq_some_iff_linked?, h.linked?_eq, if_neg hne, hlinked, Option.map_some, if_pos rfl]
  exact ⟨_, rfl, Branches.mem_insertLink_iff.2 (Or.inl rfl)⟩

/-- The new page follows the origin, and every other page the page that it followed. -/
theorem parent?_eq (node : Nat) :
    u.parent? node = if node = t.size then some origin else t.parent? node := by
  by_cases hnode : node = t.size
  · rw [if_pos hnode, hnode, parent?_of_successor? h.successor?_eq]
  · rw [if_neg hnode, parent?, h.pages_eq, Branches.parent?_grow_of_ne hnode, parent?]

end IsGrown

/-- A page that a call puts on a branch has the next number, follows on that branch and has the origin
for its parent. -/
theorem links_of_perform (h : t.perform call = .ok (u, node))
    (place : call.place? = some (origin, branch)) :
    node = t.size ∧ u.successor? origin branch = some node ∧ u.parent? node = some origin := by
  rcases t.perform_cases call with ⟨f, -, hf⟩ | ⟨root, rfl, -⟩ |
    ⟨origin', branch', v, place', grown, hv⟩
  · rw [hf] at h
    cases h
  · cases place
  · rw [place] at place'
    cases place'
    rw [hv] at h
    cases h
    exact ⟨rfl, grown.successor?_eq, parent?_of_successor? grown.successor?_eq⟩

end Tree

end GuidedLab
