import GuidedLab.Path

/-!
# Where paths lead

Without links on the disk a path leads to a position that its text alone tells: `walk` goes along its
segments, and a segment that means nothing stays where it is. Joining is walking on: the position of a
joined path is where the second path leads from the position of the first (`positionFrom_join`).

A plain name leads one step down and nowhere else. The parent of a path that ends in one leads to where
the path without the name does, though its text may be another (`parent?_child`, `walk_trimEnd`). The positions
that a path *passes* are those of its beginnings; all its ancestors lead to positions that it passes.
-/

namespace GuidedLab

namespace Path

variable {p q : Path} {start : List String} {name s : String} {body segments : List String}

/-- The position that segments lead to from a position. -/
def walk (start : List String) (segments : List String) : List String :=
  segments.foldl (fun position s =>
    if isIdle s then position else if s = ".." then position.dropLast else position ++ [s]) start

/-- A text that is one segment and means something. -/
structure IsSegment (name : String) : Prop where
  meant : isIdle name = false
  whole : '/' ∉ name.toList

/-- A text that names something in a folder. -/
structure IsPlain (name : String) : Prop extends IsSegment name where
  down : name ≠ ".."

instance (name : String) : Decidable (IsPlain name) :=
  decidable_of_iff (isIdle name = false ∧ '/' ∉ name.toList ∧ name ≠ "..")
    ⟨fun ⟨meant, whole, down⟩ => ⟨⟨meant, whole⟩, down⟩, fun h => ⟨h.meant, h.whole, h.down⟩⟩

/-- What is longer than two dots is none of the segments that mean something else. -/
theorem isPlain_of_length (h : 2 < name.toList.length) (whole : '/' ∉ name.toList) :
    IsPlain name := by
  have hne : ∀ s : String, s.toList.length ≤ 2 → name ≠ s := by
    rintro s hs rfl
    exact absurd h (Nat.not_lt_of_le hs)
  refine ⟨⟨?_, whole⟩, hne ".." (by decide)⟩
  rw [isIdle, Bool.or_eq_false_iff]
  exact ⟨decide_eq_false (hne "" (by decide)), decide_eq_false (hne "." (by decide))⟩

@[simp] theorem walk_nil (start : List String) : walk start [] = start := rfl

theorem walk_cons (start : List String) (s : String) (rest : List String) :
    walk start (s :: rest) = walk (walk start [s]) rest := rfl

theorem walk_append (start first second : List String) :
    walk start (first ++ second) = walk (walk start first) second :=
  List.foldl_append

theorem walk_idle (h : isIdle s = true) (start : List String) : walk start [s] = start :=
  if_pos h

@[simp] theorem walk_empty (start : List String) : walk start [""] = start := rfl

theorem walk_name (h : isIdle s = false) (hs : s ≠ "..") (start : List String) :
    walk start [s] = start ++ [s] := by
  show (if isIdle s then start else if s = ".." then start.dropLast else start ++ [s]) = _
  rw [h, if_neg Bool.false_ne_true, if_neg hs]

theorem walk_plain (h : IsPlain name) (start : List String) : walk start [name] = start ++ [name] :=
  walk_name h.meant h.down start

/-- What means nothing at the end of a row of segments leads nowhere. -/
theorem walk_trimEnd (start body : List String) : walk start (trimEnd body) = walk start body := by
  have key : ∀ rev : List String,
      walk start (rev.dropWhile isIdle).reverse = walk start rev.reverse := by
    intro rev
    induction rev with
    | nil => rfl
    | cons s rev ih =>
        by_cases h : isIdle s
        · rw [List.dropWhile_cons_of_pos h, ih, List.reverse_cons, walk_append, walk_idle h]
        · rw [List.dropWhile_cons_of_neg h]
  have := key body.reverse
  rwa [List.reverse_reverse] at this

/-! ### Segments -/

theorem segments_eq (p : Path) : p.segments = (Text.pieces '/' p.text.toList).map String.ofList := rfl

theorem segments_ne_nil (p : Path) : p.segments ≠ [] := by
  simpa [segments_eq] using Text.pieces_ne_nil '/' p.text.toList

theorem not_mem_of_mem_segments (h : s ∈ p.segments) : '/' ∉ s.toList := by
  obtain ⟨cs, hcs, rfl⟩ := List.mem_map.1 h
  rw [String.toList_ofList]
  exact Text.not_mem_of_mem_pieces hcs

theorem segments_whole (h : '/' ∉ name.toList) : (⟨name⟩ : Path).segments = [name] := by
  rw [segments_eq, Text.pieces_of_not_mem h]
  simp

/-- A path is where it starts and its body, and the one segment that says where it starts is not part of
the body. -/
theorem segments_cases (p : Path) :
    (p.anchor = .here ∧ p.segments = p.body ∧
      (p.body = [""] ∨ ∃ s rest, p.body = s :: rest ∧ isIdle s = false)) ∨
    (p.anchor = .root ∧ p.segments = "" :: p.body ∧ p.body ≠ []) ∨
    (p.anchor = .dot ∧ p.segments = "." :: p.body) := by
  rw [anchor, body, anchored]
  split
  · next h => exact absurd h p.segments_ne_nil
  · next s h =>
      by_cases hs : s = "."
      · subst hs
        exact Or.inr (Or.inr ⟨rfl, h⟩)
      · rw [if_neg hs]
        refine Or.inl ⟨rfl, h, ?_⟩
        by_cases he : s = ""
        · exact Or.inl (he ▸ rfl)
        · exact Or.inr ⟨s, [], rfl, by simp [isIdle, he, hs]⟩
  · next s rest hone h =>
      have hrest : rest ≠ [] := hone
      by_cases he : s = ""
      · subst he
        exact Or.inr (Or.inl ⟨rfl, h, hrest⟩)
      · rw [if_neg he]
        by_cases hs : s = "."
        · subst hs
          exact Or.inr (Or.inr ⟨rfl, h⟩)
        · rw [if_neg hs]
          exact Or.inl ⟨rfl, h, Or.inr ⟨s, rest, rfl, by simp [isIdle, he, hs]⟩⟩

theorem not_mem_of_mem_body (h : s ∈ p.body) : '/' ∉ s.toList := by
  apply p.not_mem_of_mem_segments
  rcases p.segments_cases with ⟨-, hseg, -⟩ | ⟨-, hseg, -⟩ | ⟨-, hseg⟩ <;> rw [hseg]
  · exact h
  · exact List.mem_cons_of_mem _ h
  · exact List.mem_cons_of_mem _ h

/-- Where a path with an anchor is walked from. -/
def Anchor.base (start : List String) : Anchor → List String
  | .root => []
  | _ => start

theorem positionFrom_eq (p : Path) (start : List String) :
    p.positionFrom start = walk (p.anchor.base start) p.body := by
  have hdef : p.positionFrom start = walk (if p.isAbsolute then [] else start) p.segments := rfl
  rw [hdef]
  rcases p.segments_cases with ⟨ha, hseg, -⟩ | ⟨ha, hseg, -⟩ | ⟨ha, hseg⟩
  · rw [isAbsolute, ha, hseg]
    rfl
  · rw [isAbsolute, ha, hseg]
    rfl
  · rw [isAbsolute, ha, hseg]
    rfl

/-- What the segments of a path tell of where it starts and of its body. -/
theorem anchored_of_segments_here {rest : List String} (h : p.segments = s :: rest)
    (hs : isIdle s = false) : p.anchored = (.here, s :: rest) := by
  have he : s ≠ "" := by
    rintro rfl
    cases hs
  have hd : s ≠ "." := by
    rintro rfl
    cases hs
  rw [anchored, h]
  cases rest with
  | nil => exact if_neg hd
  | cons t rest => exact (if_neg he).trans (if_neg hd)

theorem anchored_of_segments_root {rest : List String} (h : p.segments = "" :: rest)
    (hr : rest ≠ []) : p.anchored = (.root, rest) := by
  cases rest with
  | nil => exact absurd rfl hr
  | cons t rest =>
      rw [anchored, h]
      rfl

theorem anchored_of_segments_dot {rest : List String} (h : p.segments = "." :: rest) :
    p.anchored = (.dot, rest) := by
  rw [anchored, h]
  cases rest <;> rfl

theorem isAbsolute_eq_head? (p : Path) :
    p.isAbsolute = decide (p.text.toList.head? = some '/') := by
  cases ht : p.text.toList with
  | nil =>
      have hseg : p.segments = [""] := by
        rw [segments_eq, ht]
        rfl
      rw [isAbsolute, anchor, anchored, hseg]
      rfl
  | cons c cs =>
      obtain ⟨x, xs, hx⟩ := List.exists_cons_of_ne_nil (Text.pieces_ne_nil '/' cs)
      by_cases hc : c = '/'
      · subst hc
        have hseg : p.segments = "" :: (x :: xs).map String.ofList := by
          rw [segments_eq, ht, Text.pieces, hx]
          rfl
        rw [isAbsolute, anchor, anchored_of_segments_root hseg (by simp)]
        simp
      · have hseg : p.segments = String.ofList (c :: x) :: xs.map String.ofList := by
          rw [segments_eq, ht, Text.pieces, hx]
          exact congrArg (List.map String.ofList) (if_neg hc)
        have hne : String.ofList (c :: x) ≠ "" := by
          intro e
          have := congrArg String.toList e
          simp at this
        rw [isAbsolute, List.head?_cons]
        rcases p.segments_cases with ⟨ha, -⟩ | ⟨-, hs, -⟩ | ⟨ha, -⟩
        · simp [ha, hc]
        · rw [hseg] at hs
          exact absurd (List.cons.inj hs).1 hne
        · simp [ha, hc]

/-! ### Joined paths -/

/-- The segments of a joined path are those of the first, up to an empty one at the end, and then those
of the second. -/
theorem exists_segments_join (p : Path) (hq : q.isAbsolute = false) :
    ∃ first, (p.segments = first ∧ first ≠ [""] ∨ p.segments = first ++ [""]) ∧
      (p.join q).segments = first ++ q.segments := by
  rw [join, hq, if_neg Bool.false_ne_true]
  by_cases he : p.text.isEmpty = true
  · rw [he, Bool.true_or, if_pos rfl]
    have hp : p.text = "" := by simpa using he
    refine ⟨[], Or.inr ?_, ?_⟩
    · rw [segments_eq, hp]
      rfl
    · rw [segments_eq, segments_eq, hp]
      simp
  · by_cases hlast : p.text.toList.getLast? = some '/'
    · rw [hlast, decide_eq_true rfl, Bool.or_true, if_pos rfl]
      obtain ⟨t, ht⟩ := List.getLast?_eq_some_iff.1 hlast
      refine ⟨(Text.pieces '/' t).map String.ofList, Or.inr ?_, ?_⟩
      · rw [segments_eq, ht, Text.pieces_append]
        simp [Text.pieces]
      · rw [segments_eq, segments_eq, String.toList_append, ht, List.append_assoc,
          List.singleton_append, Text.pieces_append, List.map_append]
    · rw [if_neg (by simp [he, hlast])]
      have hne : p.segments ≠ [""] := by
        intro e
        have htext := Text.join_split '/' p.text
        rw [show Text.split '/' p.text = [""] from e] at htext
        exact he (by rw [← htext]; rfl)
      refine ⟨p.segments, Or.inl ⟨rfl, hne⟩, ?_⟩
      rw [segments_eq, segments_eq, segments_eq, String.toList_append, String.toList_append,
        List.append_assoc]
      show (Text.pieces '/' (p.text.toList ++ '/' :: q.text.toList)).map String.ofList = _
      rw [Text.pieces_append, List.map_append]

/-- The text of a joined path is made of the two texts, with a separator between them if there is none. -/
theorem exists_text_join (p : Path) (hq : q.isAbsolute = false) :
    ∃ sep : String, (sep = "" ∨ sep = "/") ∧ (p.join q).text = p.text ++ sep ++ q.text := by
  rw [join, hq, if_neg Bool.false_ne_true]
  split
  · exact ⟨"", Or.inl rfl, by rw [String.append_empty]⟩
  · exact ⟨"/", Or.inr rfl, rfl⟩

theorem isAbsolute_join (p : Path) (hq : q.isAbsolute = false) :
    (p.join q).isAbsolute = p.isAbsolute := by
  rw [join, hq, if_neg Bool.false_ne_true]
  rw [isAbsolute_eq_head?] at hq
  rw [isAbsolute_eq_head?, isAbsolute_eq_head? p]
  cases ht : p.text.toList with
  | nil =>
      have hp : p.text = "" := by simpa using ht
      simpa [hp] using hq
  | cons c cs =>
      split <;> simp [ht]

/-- A joined path leads where the second one leads from the position of the first. -/
theorem positionFrom_join (p : Path) (hq : q.isAbsolute = false) (start : List String) :
    (p.join q).positionFrom start = walk (p.positionFrom start) q.segments := by
  obtain ⟨first, hp, hjoin⟩ := exists_segments_join p hq
  have hdef : ∀ r : Path, r.positionFrom start =
      walk (if r.isAbsolute then [] else start) r.segments := fun _ => rfl
  rw [hdef, hdef p, isAbsolute_join p hq, hjoin, walk_append]
  rcases hp with ⟨hp, -⟩ | hp
  · rw [hp]
  · rw [hp, walk_append, walk_empty]

theorem isAbsolute_whole (h : '/' ∉ name.toList) : (⟨name⟩ : Path).isAbsolute = false := by
  rw [isAbsolute_eq_head?]
  apply decide_eq_false
  exact fun e => h (List.mem_of_mem_head? e)

theorem exists_segments_child (p : Path) (h : '/' ∉ name.toList) :
    ∃ first, (p.segments = first ∨ p.segments = first ++ [""]) ∧
      (p.child name).segments = first ++ [name] := by
  obtain ⟨first, hp, hjoin⟩ := exists_segments_join p (isAbsolute_whole h)
  rw [segments_whole h] at hjoin
  exact ⟨first, hp.imp_left And.left, hjoin⟩

theorem positionFrom_child_whole (p : Path) (h : '/' ∉ name.toList) (start : List String) :
    (p.child name).positionFrom start = walk (p.positionFrom start) [name] := by
  rw [child, positionFrom_join p (isAbsolute_whole h), segments_whole h]

/-- A plain name leads one step down. -/
theorem positionFrom_child (p : Path) (h : IsPlain name) (start : List String) :
    (p.child name).positionFrom start = p.positionFrom start ++ [name] := by
  rw [positionFrom_child_whole p h.whole, walk_plain h]

/-- Segments that are more than an empty one, up to an empty one at the end. -/
theorem exists_eq_cons_of_ended {s : String} {l first : List String}
    (h : s :: l = first ∨ s :: l = first ++ [""]) (ne : s :: l ≠ [""]) :
    ∃ b, first = s :: b ∧ (l = b ∨ l = b ++ [""]) := by
  rcases h with rfl | h
  · exact ⟨l, rfl, Or.inl rfl⟩
  · cases first with
    | nil => exact absurd h ne
    | cons t b =>
        injection h with ht hb
        exact ⟨b, by rw [ht], Or.inr hb⟩

/-- A path with a plain name at its end starts where the path starts, and the name is at the end of the
body. -/
theorem exists_anchored_child (p : Path) (h : IsSegment name) :
    ∃ first, (p.body = first ∨ p.body = first ++ [""]) ∧
      (p.child name).anchor = p.anchor ∧ (p.child name).body = first ++ [name] := by
  obtain ⟨first, hp, hchild⟩ := exists_segments_join p (isAbsolute_whole h.whole)
  replace hchild : (p.child name).segments = first ++ [name] := by
    rw [segments_whole h.whole] at hchild
    exact hchild
  suffices anchored : ∃ first, (p.body = first ∨ p.body = first ++ [""]) ∧
      (p.child name).anchored = (p.anchor, first ++ [name]) by
    obtain ⟨first, hfirst, hanchored⟩ := anchored
    refine ⟨first, hfirst, ?_, ?_⟩
    · show (p.child name).anchored.1 = p.anchor
      rw [hanchored]
    · rw [body, hanchored]
  rcases p.segments_cases with ⟨ha, hseg, hbody⟩ | ⟨ha, hseg, hne⟩ | ⟨ha, hseg⟩
  · rw [hseg] at hp
    rcases hbody with hbody | ⟨s, rest, hbody, hs⟩
    · -- only the empty path has the empty segment alone
      obtain rfl : first = [] := by
        rcases hp with ⟨hp, hfirst⟩ | hp
        · exact absurd (hp.symm.trans hbody) hfirst
        · simpa [hbody] using hp
      rw [ha, anchored_of_segments_here hchild h.meant]
      exact ⟨[], Or.inr hbody, rfl⟩
    · rw [hbody] at hp
      have hne : s :: rest ≠ [""] := by
        rintro ⟨⟩
        cases hs
      obtain ⟨b, rfl, hb⟩ := exists_eq_cons_of_ended (hp.imp_left And.left) hne
      rw [ha, anchored_of_segments_here hchild hs, hbody]
      exact ⟨s :: b, hb.imp (congrArg (s :: ·)) (congrArg (s :: ·)), rfl⟩
  · rw [hseg] at hp
    have hfilled : "" :: p.body ≠ [""] := fun e => hne (List.cons.inj e).2
    obtain ⟨b, rfl, hb⟩ := exists_eq_cons_of_ended (hp.imp_left And.left) hfilled
    rw [ha, anchored_of_segments_root hchild (by simp)]
    exact ⟨b, hb, rfl⟩
  · rw [hseg] at hp
    have hdot : "." :: p.body ≠ [""] := fun e => absurd (List.cons.inj e).1 (by decide)
    obtain ⟨b, rfl, hb⟩ := exists_eq_cons_of_ended (hp.imp_left And.left) hdot
    rw [ha, anchored_of_segments_dot hchild]
    exact ⟨b, hb, rfl⟩

/-! ### Contained paths -/

/-- The segments of a path that mean something. -/
def names (p : Path) : List String := p.segments.filter fun s => !isIdle s

theorem walk_of_down (h : ∀ s ∈ segments, isIdle s = false → s ≠ "..") (start : List String) :
    walk start segments = start ++ segments.filter fun s => !isIdle s := by
  induction segments generalizing start with
  | nil => exact (List.append_nil start).symm
  | cons s rest ih =>
      have hrest := ih fun t ht => h t (List.mem_cons_of_mem s ht)
      rw [walk_cons, hrest]
      cases hs : isIdle s with
      | true => rw [walk_idle hs, List.filter_cons_of_neg (by simp [hs])]
      | false =>
          rw [walk_name hs (h s List.mem_cons_self hs), List.filter_cons_of_pos (by simp [hs]),
            List.append_assoc]
          rfl

/-- A contained path leads strictly below wherever it is used, by its names. -/
theorem positionFrom_of_isContained (h : p.isContained = true) :
    p.isAbsolute = false ∧ p.names ≠ [] ∧ ∀ start, p.positionFrom start = start ++ p.names := by
  rw [isContained, Bool.and_eq_true, steps, List.all_eq_true] at h
  obtain ⟨hne, hall⟩ := h
  have hhere : p.anchor = .here := by
    cases ha : p.anchor with
    | here => rfl
    | root => exact absurd (hall .root (by rw [ha]; exact List.mem_cons_self)) Bool.false_ne_true
    | dot => exact absurd (hall .current (by rw [ha]; exact List.mem_cons_self)) Bool.false_ne_true
  have hsegments : p.segments = p.body := by
    rcases p.segments_cases with ⟨-, hseg, -⟩ | ⟨ha, -⟩ | ⟨ha, -⟩
    · exact hseg
    · rw [hhere] at ha
      cases ha
    · rw [hhere] at ha
      cases ha
  rw [hhere] at hne hall
  have hdown : ∀ s ∈ p.body, isIdle s = false → s ≠ ".." := by
    rintro s hs hidle rfl
    have hmem : Step.parent ∈ stepsOf p.body :=
      List.mem_map.2 ⟨"..", List.mem_filter.2 ⟨hs, rfl⟩, rfl⟩
    exact absurd (hall .parent hmem) Bool.false_ne_true
  refine ⟨by simp [isAbsolute, hhere], ?_, ?_⟩
  · intro hnil
    rw [names, hsegments] at hnil
    rw [stepsOf, hnil] at hne
    exact absurd hne Bool.false_ne_true
  · intro start
    rw [positionFrom_eq, hhere, names, hsegments]
    exact walk_of_down hdown start

theorem positionFrom_join_of_isContained (p : Path) (h : q.isContained = true)
    (start : List String) : (p.join q).positionFrom start = p.positionFrom start ++ q.names := by
  obtain ⟨habsolute, -, hposition⟩ := positionFrom_of_isContained h
  have hdef : ∀ base, q.positionFrom base = walk (if q.isAbsolute then [] else base) q.segments :=
    fun _ => rfl
  rw [positionFrom_join p habsolute, ← hposition, hdef, habsolute, if_neg Bool.false_ne_true]

/-! ### Parents -/

theorem trimEnd_append_plain (body : List String) (h : isIdle name = false) :
    trimEnd (body ++ [name]) = body ++ [name] := by
  rw [trimEnd, List.reverse_append, List.reverse_singleton, List.singleton_append,
    List.dropWhile_cons_of_neg (by rw [h]; exact Bool.false_ne_true), List.reverse_cons,
    List.reverse_reverse]

theorem trimEnd_append_idle (body : List String) (h : isIdle s = true) :
    trimEnd (body ++ [s]) = trimEnd body := by
  rw [trimEnd, List.reverse_append, List.reverse_singleton, List.singleton_append,
    List.dropWhile_cons_of_pos h, trimEnd]

theorem trimEnd_isPrefix (body : List String) : trimEnd body <+: body := by
  have h := (List.dropWhile_suffix isIdle (l := body.reverse)).reverse
  rwa [List.reverse_reverse] at h

theorem fileName?_child (p : Path) (h : IsPlain name) : (p.child name).fileName? = some name := by
  obtain ⟨first, -, -, hbody⟩ := p.exists_anchored_child h.toIsSegment
  rw [fileName?, hbody, trimEnd_append_plain first h.meant, List.getLast?_concat]
  exact if_neg h.down

theorem fileName?_up (p : Path) : (p.child "..").fileName? = none := by
  have hup : IsSegment ".." := ⟨rfl, by decide⟩
  obtain ⟨first, -, -, hbody⟩ := p.exists_anchored_child hup
  rw [fileName?, hbody, trimEnd_append_plain first rfl, List.getLast?_concat]
  rfl

/-- The file name of a path is a plain name. -/
theorem isPlain_of_fileName? (h : p.fileName? = some name) : IsPlain name := by
  rw [fileName?] at h
  split at h
  · next s hs =>
      split at h
      · cases h
      · next hdown =>
          cases h
          have hmem : name ∈ p.body := (trimEnd_isPrefix p.body).subset (List.mem_of_getLast? hs)
          refine ⟨⟨?_, not_mem_of_mem_body hmem⟩, hdown⟩
          rw [trimEnd, List.getLast?_reverse] at hs
          have hhead := List.head?_dropWhile_not isIdle p.body.reverse
          rw [hs] at hhead
          exact hhead
  · cases h

theorem parent?_child (p : Path) (h : IsSegment name) :
    (p.child name).parent? = some (ofAnchored p.anchor (trimEnd p.body)) := by
  obtain ⟨first, hp, hanchor, hbody⟩ := p.exists_anchored_child h
  have htrim : trimEnd p.body = trimEnd first := by
    rcases hp with hp | hp
    · rw [hp]
    · rw [hp, trimEnd_append_idle _ rfl]
  rw [parent?, hbody, hanchor, trimEnd_append_plain first h.meant]
  cases hfirst : first ++ [name] with
  | nil => simp at hfirst
  | cons s rest =>
      show some (ofAnchored p.anchor (trimEnd (s :: rest).dropLast)) = _
      rw [← hfirst, List.dropLast_concat, htrim]

/-- A dot after a name stands at the end of the body. -/
theorem anchored_child_dot (p : Path) (h : IsSegment name) :
    ((p.child name).child ".").anchored = ((p.child name).anchor, (p.child name).body ++ ["."]) := by
  obtain ⟨first, -, hname⟩ := exists_segments_child p h.whole
  have hfilled : ∀ segs : List String, (p.child name).segments ≠ segs ++ [""] := by
    intro segs hsegs
    rw [hname] at hsegs
    obtain rfl := List.singleton_inj.1 (List.append_inj' hsegs rfl).2
    exact absurd h.meant (by decide)
  obtain ⟨segs, hsegs, hdot⟩ := exists_segments_child (p.child name) (show '/' ∉ ".".toList by decide)
  rw [← hsegs.resolve_right (hfilled segs)] at hdot
  rcases (p.child name).segments_cases with ⟨ha, hseg, hbody⟩ | ⟨ha, hseg, -⟩ | ⟨ha, hseg⟩
  · rw [hseg] at hdot hfilled
    obtain ⟨s, rest, hs, hidle⟩ := hbody.resolve_left (hfilled [])
    rw [hs] at hdot
    rw [ha, hs]
    exact anchored_of_segments_here hdot hidle
  · rw [hseg] at hdot
    rw [ha]
    exact anchored_of_segments_root hdot (by simp)
  · rw [hseg] at hdot
    rw [ha]
    exact anchored_of_segments_dot hdot

theorem anchor_child_dot (p : Path) (h : IsSegment name) :
    ((p.child name).child ".").anchor = (p.child name).anchor := by
  show ((p.child name).child ".").anchored.1 = (p.child name).anchor
  rw [anchored_child_dot p h]

/-- A dot after a name stands for what the name stands for. -/
theorem trimEnd_body_child_dot (p : Path) (h : IsSegment name) :
    trimEnd ((p.child name).child ".").body = trimEnd (p.child name).body := by
  have hbody : ((p.child name).child ".").body = (p.child name).body ++ ["."] := by
    show ((p.child name).child ".").anchored.2 = (p.child name).body ++ ["."]
    rw [anchored_child_dot p h]
  rw [hbody, trimEnd_append_idle _ rfl]

theorem fileName?_child_dot (p : Path) (h : IsPlain name) :
    ((p.child name).child ".").fileName? = some name := by
  have hname := fileName?_child p h
  rw [fileName?] at hname ⊢
  rw [trimEnd_body_child_dot p h.toIsSegment, hname]

theorem parent?_child_dot (p : Path) (h : IsSegment name) :
    ((p.child name).child ".").parent? = some (ofAnchored p.anchor (trimEnd p.body)) := by
  have hparent := parent?_child p h
  rw [parent?] at hparent ⊢
  rw [trimEnd_body_child_dot p h, anchor_child_dot p h, hparent]

/-! ### Paths put together again -/

/-- A body as it stands after an anchor: a path that starts where it is used begins with a segment that
means something. -/
structure IsBody (a : Anchor) (body : List String) : Prop where
  free : ∀ s ∈ body, '/' ∉ s.toList
  first : a = .here → body = [] ∨ ∃ s rest, body = s :: rest ∧ isIdle s = false

theorem isBody_trimEnd (p : Path) : IsBody p.anchor (trimEnd p.body) := by
  refine ⟨fun s hs => not_mem_of_mem_body ((trimEnd_isPrefix p.body).subset hs), ?_⟩
  intro ha
  rcases p.segments_cases with ⟨-, -, hbody | ⟨s, rest, hbody, hs⟩⟩ | ⟨hr, -⟩ | ⟨hd, -⟩
  · exact Or.inl (by rw [hbody]; rfl)
  · cases ht : trimEnd p.body with
    | nil => exact Or.inl rfl
    | cons t ts =>
        have hpre := trimEnd_isPrefix p.body
        rw [ht, hbody] at hpre
        obtain ⟨rfl, -⟩ := List.cons_prefix_cons.1 hpre
        exact Or.inr ⟨t, ts, rfl, hs⟩
  · rw [ha] at hr
    cases hr
  · rw [ha] at hd
    cases hd

theorem IsBody.of_prefix {a : Anchor} {b : List String} (h : IsBody a body) (hb : b <+: body) :
    IsBody a b := by
  refine ⟨fun s hs => h.free s (hb.subset hs), ?_⟩
  intro ha
  cases b with
  | nil => exact Or.inl rfl
  | cons t ts =>
      rcases h.first ha with rfl | ⟨s, rest, rfl, hs⟩
      · exact absurd (List.prefix_nil.1 hb) (by simp)
      · obtain ⟨rfl, -⟩ := List.cons_prefix_cons.1 hb
        exact Or.inr ⟨t, ts, rfl, hs⟩

theorem segments_join (hne : body ≠ []) (h : ∀ s ∈ body, '/' ∉ s.toList) :
    (⟨Text.join '/' body⟩ : Path).segments = body :=
  Text.split_join hne h

theorem anchored_ofAnchored {a : Anchor} (h : IsBody a body) (hne : body ≠ []) :
    (ofAnchored a body).anchored = (a, body) := by
  have hjoin : ∀ c : String, '/' ∉ c.toList →
      (⟨c ++ "/" ++ Text.join '/' body⟩ : Path).segments = c :: body := by
    intro c hc
    rw [segments_eq]
    show (Text.pieces '/' (c ++ "/" ++ Text.join '/' body).toList).map String.ofList = _
    rw [String.toList_append, String.toList_append, List.append_assoc]
    show (Text.pieces '/' (c.toList ++ '/' :: (Text.join '/' body).toList)).map String.ofList = _
    rw [Text.pieces_append_cons hc, List.map_cons, String.ofList_toList]
    exact congrArg (c :: ·) (segments_join hne h.free)
  cases a with
  | here =>
      rcases h.first rfl with rfl | ⟨s, rest, rfl, hs⟩
      · exact absurd rfl hne
      · exact anchored_of_segments_here (segments_join hne h.free) hs
  | root => exact anchored_of_segments_root (hjoin "" (by simp)) hne
  | dot =>
      have hempty : body.isEmpty = false := by
        cases body with
        | nil => exact absurd rfl hne
        | cons s rest => rfl
      rw [ofAnchored]
      simp only [hempty, Bool.false_eq_true, if_false]
      exact anchored_of_segments_dot (hjoin "." (by decide))

theorem positionFrom_ofAnchored {a : Anchor} (h : IsBody a body) (start : List String) :
    (ofAnchored a body).positionFrom start = walk (a.base start) body := by
  cases body with
  | nil => cases a <;> rfl
  | cons s rest =>
      rw [positionFrom_eq, anchor, Path.body, anchored_ofAnchored h (by simp)]

/-! ### Positions on the way -/

/-- Where a path is walked from. -/
def base (start : List String) (p : Path) : List String :=
  if p.isAbsolute then [] else start

/-- A path passes the positions that the beginnings of its segments lead to. -/
def Passes (start : List String) (p : Path) (position : List String) : Prop :=
  ∃ b, b <+: p.segments ∧ position = walk (p.base start) b

theorem passes_positionFrom (start : List String) (p : Path) :
    p.Passes start (p.positionFrom start) :=
  ⟨p.segments, List.prefix_rfl, rfl⟩

/-- A joined path passes what the first path passes, and then what the second one passes from there. -/
theorem Passes.of_join (hq : q.isAbsolute = false) {position : List String}
    (passes : (p.join q).Passes start position) :
    p.Passes start position ∨
      ∃ b, b <+: q.segments ∧ position = walk (p.positionFrom start) b := by
  obtain ⟨first, hp, hjoin⟩ := exists_segments_join p hq
  obtain ⟨b, hb, rfl⟩ := passes
  have hbase : (p.join q).base start = p.base start := by
    rw [base, base, isAbsolute_join p hq]
  rw [hjoin] at hb
  rw [hbase]
  rcases List.prefix_or_prefix_of_prefix hb (List.prefix_append first _) with hb | ⟨b, rfl⟩
  · refine Or.inl ⟨b, ?_, rfl⟩
    rcases hp with ⟨hp, -⟩ | hp
    · exact hp ▸ hb
    · exact hp ▸ hb.trans (List.prefix_append first [""])
  · refine Or.inr ⟨b, (List.prefix_append_right_inj first).1 hb, ?_⟩
    have hposition : p.positionFrom start = walk (p.base start) p.segments := rfl
    rw [walk_append, hposition]
    rcases hp with ⟨hp, -⟩ | hp
    · rw [hp]
    · rw [hp, walk_append, walk_empty]

/-- A path with one more segment passes one more position. -/
theorem Passes.of_child (h : '/' ∉ name.toList) {position : List String}
    (passes : (p.child name).Passes start position) :
    p.Passes start position ∨ position = walk (p.positionFrom start) [name] := by
  rcases passes.of_join (isAbsolute_whole h) with hp | ⟨b, hb, rfl⟩
  · exact Or.inl hp
  · rw [segments_whole h] at hb
    rcases List.prefix_cons_iff.1 hb with rfl | ⟨t, rfl, ht⟩
    · exact Or.inl (passes_positionFrom start p)
    · rw [List.prefix_nil.1 ht]
      exact Or.inr rfl

/-- The segment that says where a path starts leads nowhere. -/
theorem passes_iff {position : List String} :
    p.Passes start position ↔ ∃ b, b <+: p.body ∧ position = walk (p.anchor.base start) b := by
  have hbase : p.base start = p.anchor.base start := by
    rw [base, isAbsolute]
    cases p.anchor <;> rfl
  rw [Passes, hbase]
  rcases p.segments_cases with ⟨-, hseg, -⟩ | ⟨-, hseg, -⟩ | ⟨-, hseg⟩
  · rw [hseg]
  all_goals
    rw [hseg]
    constructor
    · rintro ⟨b, hb, rfl⟩
      rcases List.prefix_cons_iff.1 hb with rfl | ⟨t, rfl, ht⟩
      · exact ⟨[], List.nil_prefix, rfl⟩
      · exact ⟨t, ht, rfl⟩
    · rintro ⟨b, hb, rfl⟩
      exact ⟨_ :: b, List.cons_prefix_cons.2 ⟨rfl, hb⟩, rfl⟩

theorem passes_of_mem_parentsFrom {a : Anchor} {n : Nat} (h : IsBody a (trimEnd body))
    (hq : q ∈ parentsFrom a n body) :
    ∃ b, b <+: body ∧ q.positionFrom start = walk (a.base start) b := by
  induction n generalizing body with
  | zero => exact absurd hq (by simp [parentsFrom])
  | succ n ih =>
      rw [parentsFrom] at hq
      split at hq
      · split at hq
        · next ha =>
            rw [List.mem_singleton.1 hq, ha]
            exact ⟨[], List.nil_prefix, rfl⟩
        · cases hq
      · next s rest ht =>
          have hup : trimEnd (s :: rest).dropLast <+: body := by
            apply (trimEnd_isPrefix _).trans
            exact (List.dropLast_prefix _).trans (ht ▸ trimEnd_isPrefix body)
          have hbody : IsBody a (trimEnd (s :: rest).dropLast) := by
            apply h.of_prefix
            rw [ht]
            exact (trimEnd_isPrefix _).trans (List.dropLast_prefix _)
          rcases List.mem_cons.1 hq with rfl | hq
          · exact ⟨_, hup, positionFrom_ofAnchored hbody start⟩
          · obtain ⟨b, hb, hposition⟩ :=
              ih (hbody.of_prefix (trimEnd_isPrefix _)) hq
            exact ⟨b, hb.trans hup, hposition⟩

/-- All ancestors of a path lead to positions that it passes. -/
theorem passes_of_mem_ancestors (hq : q ∈ p.ancestors) (start : List String) :
    p.Passes start (q.positionFrom start) := by
  rcases List.mem_cons.1 hq with rfl | hq
  · exact passes_positionFrom start q
  · exact passes_iff.2 (passes_of_mem_parentsFrom p.isBody_trimEnd hq)

end Path

end GuidedLab
