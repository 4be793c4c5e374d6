import GuidedLab.Proofs.Path.Position

/-!
# Leading paths

A path that goes on from a base with further segments is seen from the base as these segments
(`stripPrefix?_of_body`). So two plain names below a folder are seen from the folder as the two names
(`stripPrefix?_child_child`).
-/

namespace GuidedLab.Path

variable {base p : Path} {first rest : List String} {x y : String}

theorem isIdle_of_stepsOf_eq_nil (h : stepsOf first = []) : ∀ s ∈ first, isIdle s = true := by
  intro s hs
  have hfilter : first.filter (fun s => !isIdle s) = [] := by simpa [stepsOf] using h
  simpa using List.filter_eq_nil_iff.1 hfilter s hs

theorem dropSteps_append (first rest : List String) :
    ∃ idle, (∀ s ∈ idle, isIdle s = true) ∧
      dropSteps (stepsOf first).length (first ++ rest) = idle ++ rest := by
  induction first with
  | nil =>
      refine ⟨[], nofun, ?_⟩
      show dropSteps 0 rest = rest
      rw [dropSteps]
  | cons s first ih =>
      obtain ⟨idle, hidle, hdrop⟩ := ih
      cases hs : isIdle s with
      | true =>
          have hsteps : stepsOf (s :: first) = stepsOf first := by
            rw [stepsOf, List.filter_cons_of_neg (by simp [hs]), stepsOf]
          rw [hsteps, List.cons_append]
          cases hlen : (stepsOf first).length with
          | zero =>
              -- nothing is taken off, and what is before the rest means nothing
              refine ⟨s :: first, ?_, by rw [dropSteps, List.cons_append]⟩
              intro t ht
              rcases List.mem_cons.1 ht with rfl | ht
              · exact hs
              · exact isIdle_of_stepsOf_eq_nil (List.eq_nil_of_length_eq_zero hlen) t ht
          | succ n =>
              rw [dropSteps, if_pos hs, ← hlen]
              exact ⟨idle, hidle, hdrop⟩
      | false =>
          have hsteps : (stepsOf (s :: first)).length = (stepsOf first).length + 1 := by
            rw [stepsOf, List.filter_cons_of_pos (by simp [hs]), List.map_cons, List.length_cons,
              stepsOf]
          rw [hsteps, List.cons_append, dropSteps, hs, if_neg Bool.false_ne_true]
          exact ⟨idle, hidle, hdrop⟩

theorem dropWhile_idle_append {idle : List String} (h : ∀ s ∈ idle, isIdle s = true)
    (rest : List String) : (idle ++ rest).dropWhile isIdle = rest.dropWhile isIdle := by
  induction idle with
  | nil => rfl
  | cons s idle ih =>
      rw [List.cons_append, List.dropWhile_cons_of_pos (h s List.mem_cons_self)]
      exact ih fun t ht => h t (List.mem_cons_of_mem s ht)

theorem stepsOf_append (first rest : List String) :
    stepsOf (first ++ rest) = stepsOf first ++ stepsOf rest := by
  rw [stepsOf, List.filter_append, List.map_append, stepsOf, stepsOf]

/-- A path that starts where it is used has nothing in front of its first segment that means something. -/
theorem eq_nil_of_stepsOf_eq_nil (anchor : p.anchor = .here) (hp : p.body = first ++ rest)
    (ne : rest ≠ []) (hfirst : stepsOf first = []) : first = [] := by
  cases first with
  | nil => rfl
  | cons s first =>
      have hidle : isIdle s = true := isIdle_of_stepsOf_eq_nil hfirst s List.mem_cons_self
      rcases p.segments_cases with ⟨-, -, hbody | ⟨t, tail, hbody, ht⟩⟩ | ⟨ha, -⟩ | ⟨ha, -⟩
      · rw [hp] at hbody
        simp [ne] at hbody
      · rw [hp] at hbody
        rw [← (List.cons.inj hbody).1, hidle] at ht
        cases ht
      · rw [anchor] at ha
        cases ha
      · rw [anchor] at ha
        cases ha

/-- A path that goes on from a base with segments that mean something at both ends is seen from the base
as these segments. -/
theorem stripPrefix?_of_body (anchor : p.anchor = base.anchor)
    (hbase : base.body = first ∨ base.body = first ++ [""]) (hp : p.body = first ++ rest)
    (begins : rest.dropWhile isIdle = rest) (ends : trimEnd rest = rest) (ne : rest ≠ []) :
    stripPrefix? base p = some (ofAnchored .here rest) := by
  have hsteps : stepsOf base.body = stepsOf first := by
    rcases hbase with h | h
    · rw [h]
    · rw [h, stepsOf_append]
      exact List.append_nil _
  have hpre : base.steps.isPrefixOf p.steps = true := by
    rw [List.isPrefixOf_iff_prefix, steps, steps, anchor, hsteps, hp, stepsOf_append,
      ← List.append_assoc]
    exact List.prefix_append _ _
  rw [stripPrefix?, if_pos hpre]
  split
  · next hnil =>
      -- the base is the empty path, which has nothing in front of its last segment
      rw [steps, List.append_eq_nil_iff, hsteps] at hnil
      obtain ⟨hanchor, hfirst⟩ := hnil
      have hhere : base.anchor = .here := by
        cases ha : base.anchor with
        | here => rfl
        | root => rw [ha] at hanchor; cases hanchor
        | dot => rw [ha] at hanchor; cases hanchor
      have hfirst : first = [] := eq_nil_of_stepsOf_eq_nil (anchor.trans hhere) hp ne hfirst
      rw [anchor, hhere, hp, hfirst, List.nil_append, ends]
  · obtain ⟨idle, hidle, hdrop⟩ := dropSteps_append first rest
    have hcount : base.steps.length - p.anchor.step?.toList.length = (stepsOf first).length := by
      rw [steps, hsteps, anchor, List.length_append]
      omega
    rw [hcount, hp, hdrop]
    dsimp only
    rw [dropWhile_idle_append hidle, begins, ends]

theorem stripPrefix?_child_child (p : Path) (hx : IsPlain x) (hy : IsPlain y) :
    stripPrefix? p ((p.child x).child y) = some (ofAnchored .here [x, y]) := by
  obtain ⟨first, hfirst, hanchor, hbody⟩ := p.exists_anchored_child hx.toIsSegment
  obtain ⟨second, hsecond, hanchor', hbody'⟩ := (p.child x).exists_anchored_child hy.toIsSegment
  have hsecond : second = first ++ [x] := by
    rcases hsecond with h | h
    · rw [← h, hbody]
    · -- a path that ends in a name has no empty segment at its end
      rw [hbody] at h
      have hlast := congrArg List.getLast? h
      rw [List.getLast?_concat, List.getLast?_concat, Option.some.injEq] at hlast
      have := hx.meant
      rw [hlast] at this
      cases this
  rw [hsecond, List.append_assoc] at hbody'
  apply stripPrefix?_of_body (hanchor'.trans hanchor) hfirst hbody'
  · exact List.dropWhile_cons_of_neg (by rw [hx.meant]; exact Bool.false_ne_true)
  · exact trimEnd_append_plain [x] hy.meant
  · exact List.cons_ne_nil _ _

/-- Two plain names make a path that leads down by both. -/
theorem names_ofAnchored_here (hx : IsPlain x) (hy : IsPlain y) :
    (ofAnchored .here [x, y]).names = [x, y] := by
  have hsegments : (ofAnchored .here [x, y]).segments = [x, y] := by
    apply segments_join (List.cons_ne_nil _ _)
    intro s hs
    rcases List.mem_cons.1 hs with rfl | hs
    · exact hx.whole
    · rw [List.mem_singleton.1 hs]
      exact hy.whole
  rw [names, hsegments]
  simp [hx.meant, hy.meant]

end GuidedLab.Path
