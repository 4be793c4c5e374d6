import GuidedLab.Report
import GuidedLab.Proofs.Script.Interruption
import GuidedLab.Proofs.Script.Turns
import GuidedLab.Proofs.Source.Consistent

/-!
# What a report tells

A report is put together from what lasts in a script, from the answers of the text questions in its sheets
and from which checkboxes in its sheets are ticked. Nothing else of a run shows in it: not the other
states, not which questions are optional, not what was recorded (`Script.report_eq`). So scripts that
agree in these have the same report, whether they are the same script at two moments of its run, the same
script in two runs, or a script and what was loaded from its snapshot (`Script.report_tells_answers`).

What stands in no sheet is in no report. Items of sheets are addressed by positions, so an address that is
no page's own (`Address.isNode`) is that of an item.
-/

namespace GuidedLab

namespace Component

variable {c d : Component}

/-- The answer of a text question. -/
def answer? : Component → Option String
  | .leaf _ _ element => element.answer?
  | .sheet .. => none

/-- Whether a checkbox is ticked. -/
def ticked? : Component → Option Bool
  | .leaf _ state (.checkbox _) => some state.isDone
  | _ => none

/-- Two components say the same in a report. -/
structure SaysSame (c d : Component) : Prop where
  answer : c.answer? = d.answer?
  ticked : c.ticked? = d.ticked?

/-- What is read back of a snapshot includes what is said in a report. -/
theorem saysSame_of_settled (lasting : c.withoutChanges = d.withoutChanges)
    (h : c.progress = d.progress.settled) : c.SaysSame d := by
  cases c with
  | leaf name state element =>
      cases d with
      | leaf name' state' element' =>
          injection lasting with _ _ helement
          injection h with hstate hanswer _
          refine ⟨hanswer, ?_⟩
          cases element with
          | checkbox text =>
              cases element' with
              | checkbox text' => exact congrArg (fun s : State => some s.isDone) hstate
              | _ => cases helement
          | _ =>
              cases element' with
              | checkbox text' => cases helement
              | _ => rfl
      | sheet name' state' orientation' items' => cases lasting
  | sheet name state orientation items =>
      cases d with
      | leaf name' state' element' => cases lasting
      | sheet name' state' orientation' items' => exact ⟨rfl, rfl⟩

end Component

namespace Report

open Component (SaysSame)

variable {c d : Component} {items items' : List Component}

theorem entry?_eq (lasting : c.withoutChanges = d.withoutChanges) (same : c.SaysSame d) :
    entry? c = entry? d := by
  obtain ⟨answer, ticked⟩ := same
  cases c with
  | leaf name state element =>
      cases d with
      | leaf name' state' element' =>
          injection lasting with _ _ helement
          cases element with
          | textQuestion q =>
              cases element' with
              | textQuestion q' =>
                  injection helement with hq
                  injection hq with htext _ _ hnumber
                  injection answer with hanswer
                  rw [ entry?, entry?, htext, hanswer, hnumber]
              | _ => cases helement
          | checkbox text =>
              cases element' with
              | checkbox text' =>
                  injection helement with htext
                  injection ticked with hticked
                  rw [ entry?, entry?, htext, hticked]
              | _ => cases helement
          | question text number =>
              cases element' with
              | question text' number' =>
                  cases helement
                  rfl
              | _ => cases helement
          | _ =>
              cases element' with
              | textQuestion _ | checkbox _ | question _ _ => cases helement
              | _ => rfl
      | sheet name' state' orientation' items' => cases lasting
  | sheet name state orientation items =>
      cases d with
      | leaf name' state' element' => cases lasting
      | sheet name' state' orientation' items' => rfl

theorem sectionsOfItems_eq_flatten (items : List Component) :
    sectionsOfItems items = (items.map sections).flatten := by
  induction items with
  | nil => rfl
  | cons c rest ih => rw [sectionsOfItems, ih, List.map_cons, List.flatten_cons]

/-- Components of which the same lasts have the same sections if their items say the same at every
depth. -/
theorem sections_eq (lasting : c.withoutChanges = d.withoutChanges)
    (same : ∀ p, p ≠ [] → ∀ x y, c.item? p = some x → d.item? p = some y → x.SaysSame y) :
    sections c = sections d := by
  induction c using Component.induction generalizing d with
  | leaf name state element =>
      cases d with
      | leaf name' state' element' => rfl
      | sheet name' state' orientation' items' => cases lasting
  | sheet name state orientation items ih =>
      cases d with
      | leaf name' state' element' => cases lasting
      | sheet name' state' orientation' items' =>
          rw [Component.withoutChanges, Component.withoutChanges, Component.erased_sheet,
            Component.erased_sheet] at lasting
          injection lasting with hname _ _ hitems
          have hentries : items.map entry? = items'.map entry? := by
            apply Lists.map_eq_of_map_eq hitems
            intro j x y hx hy hxy
            apply entry?_eq hxy
            apply same [j] (List.cons_ne_nil _ _)
            · rw [Component.item?_sheet_cons, hx, Option.bind_some, Component.item?_nil]
            · rw [Component.item?_sheet_cons, hy, Option.bind_some, Component.item?_nil]
          have hsections : items.map sections = items'.map sections := by
            apply Lists.map_eq_of_map_eq hitems
            intro j x y hx hy hxy
            apply ih x (List.mem_of_getElem? hx) hxy
            intro p hp v w hv hw
            apply same (j :: p) (List.cons_ne_nil _ _)
            · rw [Component.item?_sheet_cons, hx, Option.bind_some, hv]
            · rw [Component.item?_sheet_cons, hy, Option.bind_some, hw]
          have hfilter : ∀ cs : List Component,
              cs.filterMap entry? = (cs.map entry?).filterMap id := by
            intro cs
            rw [List.filterMap_map, Function.id_comp]
          rw [sections, sections, sectionsOfItems_eq_flatten, sectionsOfItems_eq_flatten, hname,
            hfilter, hfilter, hentries, hsections]

end Report

namespace Tree

variable {t u : Tree}

/-- The answer of the text question at an address. -/
def answerAt? (t : Tree) (a : Address) : Option String := (t.at? a).bind Component.answer?

/-- Whether the checkbox at an address is ticked. -/
def tickedAt? (t : Tree) (a : Address) : Option Bool := (t.at? a).bind Component.ticked?

/-- Two trees say the same in a report: the same is answered and ticked in their sheets. -/
structure SaysSame (t u : Tree) : Prop where
  answers : ∀ a : Address, a.isNode = false → t.answerAt? a = u.answerAt? a
  ticks : ∀ a : Address, a.isNode = false → t.tickedAt? a = u.tickedAt? a

theorem saysSame_of_settled (lasting : t.withoutChanges = u.withoutChanges)
    (h : ∀ k p, (t.part? k p).map Component.progress =
      (u.part? k p).map fun c => c.progress.settled) : t.SaysSame u := by
  have key : ∀ a : Address, t.answerAt? a = u.answerAt? a ∧ t.tickedAt? a = u.tickedAt? a := by
    intro a
    have hlasting := at?_map_eq_of_withoutChanges_eq lasting a
    have hprogress := at?_map_eq_of_parts (shape_eq_of_map_eq lasting) h a
    rw [answerAt?, answerAt?, tickedAt?, tickedAt?]
    cases hc : t.at? a with
    | none =>
        rw [hc] at hlasting
        rw [Option.map_eq_none_iff.1 hlasting.symm]
        exact ⟨rfl, rfl⟩
    | some c =>
        rw [hc] at hlasting hprogress
        obtain ⟨d, hd, hcd⟩ := Option.map_eq_some_iff.1 hlasting.symm
        rw [hd] at hprogress ⊢
        have hsame := Component.saysSame_of_settled hcd.symm (Option.some.inj hprogress)
        exact ⟨hsame.answer, hsame.ticked⟩
  exact ⟨fun a _ => (key a).1, fun a _ => (key a).2⟩

/-- Trees of which the same lasts and that say the same have the same sections. -/
theorem sections_eq (lasting : t.withoutChanges = u.withoutChanges) (same : t.SaysSame u) :
    Report.sectionsOfItems t.components = Report.sectionsOfItems u.components := by
  rw [Report.sectionsOfItems_eq_flatten, Report.sectionsOfItems_eq_flatten]
  congr 1
  have hpre : t.preorder = u.preorder := preorder_eq_of_shape_eq (shape_eq_of_map_eq lasting)
  apply Lists.map_eq_of_map_eq (components_map_eq lasting)
  intro k c d hc hd hcd
  apply Report.sections_eq hcd
  intro p hp x y hx hy
  rw [getElem?_components] at hc hd
  obtain ⟨node, hnode, hc⟩ := Option.bind_eq_some_iff.1 hc
  rw [← hpre, hnode, Option.bind_some] at hd
  have hitem : (⟨node, p⟩ : Address).isNode = false := by
    rw [Address.isNode, List.isEmpty_eq_false_iff]
    exact hp
  have hanswer := same.answers ⟨node, p⟩ hitem
  have hticked := same.ticks ⟨node, p⟩ hitem
  simp only [answerAt?, tickedAt?, at?, hc, hd, Option.bind_some, hx, hy] at hanswer hticked
  exact ⟨hanswer, hticked⟩

end Tree

namespace Script

theorem title_perform (s : Script) (call : Call) : (s.perform call).title = s.title := by
  cases call with
  | interact a i => exact s.title_interact a i
  | start => rcases s.start_cases with h | ⟨c, -, -, h⟩ <;> rw [perform, h]
  | load archive => rcases s.load_cases archive with ⟨t, -, h⟩ | ⟨f, -, h⟩ <;> rw [perform, h]

theorem title_after (s : Script) (calls : List Call) : (s.after calls).title = s.title := by
  induction calls generalizing s with
  | nil => rfl
  | cons call calls ih => rw [after_cons, ih, title_perform]

/-- A report tells the title, what lasts, and what is answered and ticked in sheets. -/
theorem report_eq {s t : Script} (title : s.title = t.title)
    (lasting : s.tree.withoutChanges = t.tree.withoutChanges) (same : s.tree.SaysSame t.tree) :
    s.report = t.report := by
  rw [report, report, sections, sections, title, Tree.sections_eq lasting same]

/-- The report of a loaded script at any moment of any run depends on what is answered and ticked in its
sheets only. It is the report of the script that is loaded anew from what is saved at that moment, and an
interaction that changes it changes an answer in a sheet or a tick in a sheet. -/
theorem report_tells_answers {text : String} {fresh : Script} (loaded : Source.script text = .ok fresh)
    (calls : List Call) :
    (∀ a, ∃ saved, ((fresh.after calls).save a).2 = .ok saved ∧ (fresh.load saved).2 = .ok () ∧
      (fresh.load saved).1.report = (fresh.after calls).report) ∧
    (∀ others, (fresh.after calls).tree.SaysSame (fresh.after others).tree →
      (fresh.after calls).report = (fresh.after others).report) ∧
    ∀ a i, ((fresh.after calls).interact a i).1.report ≠ (fresh.after calls).report →
      ∃ b : Address, b.isNode = false ∧
        (((fresh.after calls).interact a i).1.tree.answerAt? b ≠ (fresh.after calls).tree.answerAt? b ∨
          ((fresh.after calls).interact a i).1.tree.tickedAt? b ≠ (fresh.after calls).tree.tickedAt? b) := by
  refine ⟨?_, ?_, ?_⟩
  · intro a
    obtain ⟨saved, hsaved, hloaded, hlasting, hprogress⟩ :=
      exists_saved_of_after (.loaded loaded) (Source.isEmpty_of_script loaded) calls a
    have hchanges : (fresh.load saved).1.tree.withoutChanges =
        (fresh.after calls).tree.withoutChanges := by
      rw [fresh.withoutChanges_after calls]
      exact Tree.withoutChanges_eq_of_withoutProgress_eq hlasting
    refine ⟨saved, hsaved, hloaded, report_eq ?_ hchanges (Tree.saysSame_of_settled hchanges hprogress)⟩
    rw [fresh.title_after calls]
    exact fresh.title_perform (.load saved)
  · intro others same
    refine report_eq ?_ ?_ same
    · rw [fresh.title_after, fresh.title_after]
    · rw [fresh.withoutChanges_after, fresh.withoutChanges_after]
  · intro a i changed
    apply Classical.byContradiction
    intro none
    simp only [not_exists, not_and, not_or, ne_eq, Classical.not_not] at none
    apply changed
    apply report_eq (title_interact _ a i)
    · exact (moves_perform (fresh.after calls) (.interact a i)).withoutChanges_eq
    · exact ⟨fun b hb => (none b hb).1, fun b hb => (none b hb).2⟩

/-- The script of `Source.branchedText`, with its question answered. -/
def answeredRun : List Call := [.interact ⟨2, [0]⟩ (.answer "0.4 s")]

/-- The same with more that is not told: the question is made optional and the way aside is taken. -/
def branchedRun : List Call :=
  answeredRun ++ [.interact ⟨2, [0]⟩ (.optional true), .interact (.ofNode 0) (.override (.done 1))]

theorem saysSame_branchedRun :
    ((new "T" Source.branchedTree).after branchedRun).tree.SaysSame
      ((new "T" Source.branchedTree).after answeredRun).tree := by
  have key : ∀ (node i : Nat) (p : List Nat),
      ((new "T" Source.branchedTree).after branchedRun).tree.answerAt? ⟨node, i :: p⟩ =
          ((new "T" Source.branchedTree).after answeredRun).tree.answerAt? ⟨node, i :: p⟩ ∧
        ((new "T" Source.branchedTree).after branchedRun).tree.tickedAt? ⟨node, i :: p⟩ =
          ((new "T" Source.branchedTree).after answeredRun).tree.tickedAt? ⟨node, i :: p⟩
    | 0, _, _ | 1, _, _ | 2, 0, [] | 2, 0, _ :: _ | 2, _ + 1, _ | _ + 3, _, _ => ⟨rfl, rfl⟩
  constructor
  · rintro ⟨node, _ | ⟨i, p⟩⟩ hitem
    · cases hitem
    · exact (key node i p).1
  · rintro ⟨node, _ | ⟨i, p⟩⟩ hitem
    · cases hitem
    · exact (key node i p).2

theorem report_tells_answers_branched :
    ∃ saved, (((new "T" Source.branchedTree).after branchedRun).save .empty).2 = .ok saved ∧
      ((new "T" Source.branchedTree).load saved).1.report =
        "# T\n\n## drop\n\n**Q1.** ?\n\n> 0.4 s\n\n## aside\n\n_No questions on this page._\n" ∧
      ((new "T" Source.branchedTree).after branchedRun).report =
        ((new "T" Source.branchedTree).after answeredRun).report := by
  obtain ⟨hsaved, hsame, -⟩ := report_tells_answers Source.script_branchedText branchedRun
  obtain ⟨saved, hsave, -, hreport⟩ := hsaved .empty
  refine ⟨saved, hsave, ?_, hsame answeredRun saysSame_branchedRun⟩
  rw [hreport]
  decide +kernel

end Script

end GuidedLab
