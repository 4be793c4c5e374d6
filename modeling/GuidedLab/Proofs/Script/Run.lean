import GuidedLab.Script
import GuidedLab.Proofs.Source.Loaded
import GuidedLab.Proofs.Tree.Snapshot

/-!
# Runs of a script

A run starts with a script as it is made, from the constructors or by the loader, and goes on with
calls: interactions, starts and snapshots that are taken back. Any of them may be refused. `Moves`
says what one call can do to the tree, and `moves_perform` that it does nothing else, so what every
call preserves holds after every run. That goes for what no interaction touches
(`withoutChanges_after`) and for where recordings may lie (`isContained_after`).
-/

namespace GuidedLab

/-- An element that an interaction does not address is in the tree as it was. -/
theorem Tree.at?_set_eq_some_iff {i : Interaction} {t : Tree} {a b : Address} {c d e : Component}
    {changes : List ItemChange} (found : t.component? a.node = some c)
    (h : Component.Responds i a.items c d changes) (ne : b ≠ a) (element : e.IsElement) :
    (t.set a.node d).at? b = some e ↔ t.at? b = some e := by
  by_cases page : b.node = a.node
  · rw [at?, at?, page, component?_set_self found, found, Option.bind_some, Option.bind_some]
    exact h.item?_eq_some_iff (Address.items_ne ne page) element
  · rw [at?_set_of_ne page]

namespace Script

/-- What is done to a script while it runs. -/
inductive Call where
  | interact (a : Address) (i : Interaction)
  | start
  | load (archive : Archive)

/-- The script after a call. -/
def perform (s : Script) : Call → Script
  | .interact a i => (s.interact a i).1
  | .start => s.start.1
  | .load archive => (s.load archive).1

/-- The script after calls, one after the other. -/
def after (s : Script) (calls : List Call) : Script :=
  calls.foldl perform s

/-- The interaction that a call was, if it was one and was accepted. -/
def taken (s : Script) : Call → List (Address × Interaction)
  | .interact a i =>
    match (s.interact a i).2 with
    | .ok _ => [(a, i)]
    | .error _ => []
  | .start => []
  | .load _ => []

/-- The interactions among calls that were accepted, in their order. -/
def accepted (s : Script) : List Call → List (Address × Interaction)
  | [] => []
  | call :: rest => s.taken call ++ (s.perform call).accepted rest

/-- Scripts as they are made, before anything is done to them. -/
inductive Made : Script → Prop where
  | constructed (title : String) (tree : Tree) (built : ∀ c ∈ tree.components, c.Built) :
      Made (.new title tree)
  | loaded {text : String} {s : Script} (h : Source.script text = .ok s) : Made s

/-- What a call can do to the tree, and the interaction that was accepted if it was one. -/
inductive Moves : Call → List (Address × Interaction) → Tree → Tree → Prop where
  | refused (call : Call) (t : Tree) : Moves call [] t t
  | interacted {a : Address} {i : Interaction} {t : Tree} {c d : Component}
      {changes : List ItemChange} (found : t.component? a.node = some c)
      (h : Component.Responds i a.items c d changes) :
      Moves (.interact a i) [(a, i)] t (t.set a.node d)
  | started {t : Tree} {c : Component} (found : t.component? 0 = some c)
      (h : c.state.le .ongoing = true) : Moves .start [] t (t.set 0 (c.withState .ongoing))
  | loaded {archive : Archive} {t u : Tree} (h : t.restored? archive = .ok u) :
      Moves (.load archive) [] t u

theorem after_cons (s : Script) (call : Call) (calls : List Call) :
    s.after (call :: calls) = (s.perform call).after calls := rfl

theorem Made.built {s : Script} (h : s.Made) : ∀ c ∈ s.tree.components, c.Built := by
  cases h with
  | constructed title tree built => exact built
  | loaded h => exact Source.built_of_script h

/-- A script with one page of a checkbox and a text question. -/
def sample : Script :=
  .new "Free fall" (.new (.ofItems "Drop" .vertical
    [.ofCheckbox "ready" "Ball held?", .ofTextQuestion "time" "How long does it fall?" false]))

theorem made_sample : sample.Made := by
  apply Made.constructed
  intro c hc
  rw [List.mem_singleton.1 hc]
  apply Component.Built.sheet
  intro d hd
  rcases List.mem_cons.1 hd with rfl | hd
  · exact .checkbox _ _
  · rw [List.mem_singleton.1 hd]
    exact .textQuestion _ _ _

theorem Made.every_isInitial {s : Script} (h : s.Made) :
    ∀ c ∈ s.tree.components, c.Every Component.IsInitial :=
  fun c hc => (h.built c hc).every_isInitial

/-- A call does to the tree what its kind of call can do, or nothing. -/
theorem moves_perform (s : Script) (call : Call) :
    Moves call (s.taken call) s.tree (s.perform call).tree := by
  cases call with
  | interact a i =>
      rw [taken, perform, interact]
      cases hr : s.tree.respond? a i with
      | error f => exact .refused _ _
      | ok r =>
          obtain ⟨c, d, changes, hc, hd, ht, -⟩ :=
            Tree.respond?_eq_ok_iff.1 (hr : s.tree.respond? a i = .ok (r.1, r.2))
          show Moves _ _ s.tree r.1
          rw [ht]
          exact .interacted hc (Component.respond?_eq_ok_iff.1 hd)
  | start =>
      rw [taken, perform, start]
      cases hc : s.tree.component? 0 with
      | none => exact .refused _ _
      | some c =>
          dsimp only
          split
          · next h => exact .started hc h
          · exact .refused _ _
  | load archive =>
      rw [taken, perform, load]
      cases hr : s.tree.restored? archive with
      | error f => exact .refused _ _
      | ok u => exact .loaded hr

/-- What every call preserves of a tree is so after every run. -/
theorem tree_after_induction {P : Tree → Prop}
    (step : ∀ {call taken t u}, Moves call taken t u → P t → P u)
    {s : Script} (h : P s.tree) (calls : List Call) : P (s.after calls).tree := by
  induction calls generalizing s with
  | nil => exact h
  | cons call calls ih =>
      rw [after_cons]
      exact ih (step (moves_perform s call) h)

theorem Moves.withoutChanges_eq {call : Call} {taken : List (Address × Interaction)} {t u : Tree}
    (h : Moves call taken t u) : u.withoutChanges = t.withoutChanges := by
  cases h with
  | refused => rfl
  | interacted found h => exact Tree.withoutChanges_set found h.withoutChanges_eq
  | started found h => exact Tree.withoutChanges_set found (Component.erased_withState _ _ _)
  | loaded h =>
      apply Tree.withoutChanges_eq_of_withoutProgress_eq
      exact Tree.withoutProgress_restored? h

/-- What is recorded in a tree was recorded before, is the text of a path or was brought by an
interaction. -/
theorem Moves.records {P : RawPath → Prop} {call : Call} {taken : List (Address × Interaction)}
    {t u : Tree} (h : Moves call taken t u)
    (written : ∀ p : Path, p.isContained = true → P (.ofPath p))
    (brought : ∀ a path, (a, .record path) ∈ taken → path.isContained = true → P path)
    (ht : t.Records P) : u.Records P := by
  cases h with
  | refused => exact ht
  | @interacted a i t c d changes found h =>
      apply Tree.records_set ht
      refine h.every_records (ht _ (Tree.mem_components_iff.2 ⟨_, found⟩)) ?_
      rintro path rfl contained
      exact brought a path List.mem_cons_self contained
  | @started t c found h =>
      apply Tree.records_set ht
      have hc : c.Every (Component.Records P) := ht _ (Tree.mem_components_iff.2 ⟨_, found⟩)
      exact hc.withState (hc.self.withState _)
  | loaded h => exact Tree.records_restored? h written ht

/-- No run touches what lasts. -/
theorem withoutChanges_after (s : Script) (calls : List Call) :
    (s.after calls).tree.withoutChanges = s.tree.withoutChanges :=
  tree_after_induction (P := fun t => t.withoutChanges = s.tree.withoutChanges)
    (fun h ht => h.withoutChanges_eq.trans ht) rfl calls

/-- Nothing is recorded in a script as it is made. -/
theorem Made.records {P : RawPath → Prop} {s : Script} (h : s.Made) : s.tree.Records P :=
  fun c hc => (h.every_isInitial c hc).mono fun _ => Component.IsInitial.records

/-- In every run of a script as it is made, what is recorded lies below the run's directory. -/
theorem Made.isContained_after {s : Script} (h : s.Made) (calls : List Call) :
    (s.after calls).tree.IsContained := by
  refine tree_after_induction (fun h ht => h.records ?_ ?_ ht) h.records calls
  · exact fun p contained => (RawPath.isContained_ofPath p).trans contained
  · exact fun _ _ _ contained => contained

end Script

end GuidedLab
