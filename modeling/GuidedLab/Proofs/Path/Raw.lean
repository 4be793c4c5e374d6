import GuidedLab.Proofs.Path.Position
import GuidedLab.Proofs.Text.Lossy
import GuidedLab.RawPath

/-!
# What raw paths mean

A path and its bytes, and bytes and the text that is shown of them, have the same steps up to how names
are spelled: separators, dots and nothing at all are read from nothing else (`steps_of_respelled`). So
bytes are a contained path exactly if their text is one (`isContained_text`), and a path that is written
as a text is contained as bytes exactly if it is as a text (`isContained_ofPath`).
-/

namespace GuidedLab

namespace Text

/-- A text that is spelled anew falls apart as before, if separators stay where they are and no part gets
one. -/
theorem pieces_respelled {sep : Char} {f : List Char → List Char} {cs : List Char}
    (cut : ∀ p rest, f (p ++ sep :: rest) = f p ++ sep :: f rest)
    (whole : ∀ p ∈ pieces sep cs, sep ∉ f p) : pieces sep (f cs) = (pieces sep cs).map f := by
  have key : ∀ ps : List (List Char), ps ≠ [] → (∀ p ∈ ps, sep ∉ f p) →
      pieces sep (f (joined sep ps)) = ps.map f := by
    intro ps
    induction ps with
    | nil => exact fun h => absurd rfl h
    | cons p ps ih =>
        intro _ hall
        have hp : sep ∉ f p := hall p List.mem_cons_self
        cases ps with
        | nil => rw [joined_singleton, pieces_of_not_mem hp, List.map_singleton]
        | cons q qs =>
            rw [joined_cons_cons, cut, pieces_append_cons hp,
              ih (List.cons_ne_nil _ _) fun r hr => hall r (List.mem_cons_of_mem _ hr)]
            rfl
  have h := key _ (pieces_ne_nil sep cs) whole
  rwa [joined_pieces] at h

end Text

namespace Path

/-- A step with its name spelled anew. -/
def Step.respelled (g : String → String) : Step → Step
  | .name n => .name (g n)
  | s => s

/-- Segments that mean something else than names are spelled as before, and nothing else is spelled so. -/
structure Respells (g : String → String) (s : String) : Prop where
  empty : g s = "" ↔ s = ""
  dot : g s = "." ↔ s = "."
  up : g s = ".." ↔ s = ".."

variable {p q : Path} {g : String → String}

theorem Respells.isIdle_eq {s : String} (h : Respells g s) : isIdle (g s) = isIdle s := by
  rw [isIdle, isIdle]
  simp only [h.empty, h.dot]

theorem stepsOf_respelled {body : List String} (h : ∀ s ∈ body, Respells g s) :
    stepsOf (body.map g) = (stepsOf body).map (Step.respelled g) := by
  induction body with
  | nil => rfl
  | cons s body ih =>
      have hs := h s List.mem_cons_self
      have hrest := ih fun t ht => h t (List.mem_cons_of_mem _ ht)
      rw [stepsOf, stepsOf] at hrest ⊢
      rw [List.map_cons, List.filter_cons, List.filter_cons, hs.isIdle_eq]
      cases isIdle s with
      | true => exact hrest
      | false =>
          have hstep : Step.ofSegment (g s) = (Step.ofSegment s).respelled g := by
            rw [Step.ofSegment, Step.ofSegment]
            by_cases hup : s = ".."
            · rw [if_pos hup, if_pos (hs.up.2 hup)]
              rfl
            · rw [if_neg hup, if_neg fun e => hup (hs.up.1 e)]
              rfl
          show Step.ofSegment (g s) :: _ = (Step.ofSegment s).respelled g :: _
          rw [hstep]
          exact congrArg _ hrest

theorem anchored_respelled (segments : q.segments = p.segments.map g)
    (h : ∀ s ∈ p.segments, Respells g s) : q.anchored = (p.anchor, p.body.map g) := by
  rw [anchor, body, anchored, anchored, segments]
  cases hp : p.segments with
  | nil => exact absurd hp p.segments_ne_nil
  | cons s rest =>
      have hs : Respells g s := h s (by rw [hp]; exact List.mem_cons_self)
      cases rest with
      | nil =>
          simp only [List.map_cons, List.map_nil, hs.dot]
          split <;> rfl
      | cons t rest =>
          simp only [List.map_cons, hs.empty, hs.dot]
          split
          · rfl
          · split <;> rfl

theorem mem_segments_of_mem_body {s : String} (h : s ∈ p.body) : s ∈ p.segments := by
  rcases p.segments_cases with ⟨-, hseg, -⟩ | ⟨-, hseg, -⟩ | ⟨-, hseg⟩ <;> rw [hseg]
  · exact h
  · exact List.mem_cons_of_mem _ h
  · exact List.mem_cons_of_mem _ h

/-- A path whose segments are those of another, spelled anew, has its steps, spelled anew. -/
theorem steps_of_respelled (segments : q.segments = p.segments.map g)
    (h : ∀ s ∈ p.segments, Respells g s) : q.steps = p.steps.map (Step.respelled g) := by
  have hanchored := anchored_respelled segments h
  rw [steps, steps, anchor, body, hanchored, List.map_append,
    stepsOf_respelled fun s hs => h s (mem_segments_of_mem_body hs)]
  congr 1
  cases p.anchor <;> rfl

theorem isContained_of_respelled (segments : q.segments = p.segments.map g)
    (h : ∀ s ∈ p.segments, Respells g s) : q.isContained = p.isContained := by
  rw [isContained, isContained, steps_of_respelled segments h, List.isEmpty_map, List.all_map]
  congr 2
  funext s
  cases s <;> rfl

end Path

namespace RawPath

variable {p q : RawPath}

theorem toUInt8_ofUInt8 (b : UInt8) : (Char.ofUInt8 b).toUInt8 = b :=
  UInt8.toUInt8_toUInt32 b

theorem ofUInt8_eq_ofNat (b : UInt8) : Char.ofUInt8 b = Char.ofNat b.toNat := by
  have hb := b.toNat_lt
  rw [← Char.toNat_inj, Text.toNat_ofNat_of_isValidChar (Or.inl (by omega))]
  rfl

/-! ### Bytes of a text -/

/-- The characters that stand for the bytes of characters. -/
def spelling (cs : List Char) : List Char :=
  (cs.flatMap String.utf8EncodeChar).map Char.ofUInt8

theorem spelled_ofPath (p : Path) : (ofPath p).spelled = ⟨String.ofList (spelling p.text.toList)⟩ :=
  rfl

theorem toUInt8_spelling (cs : List Char) :
    (spelling cs).map Char.toUInt8 = cs.flatMap String.utf8EncodeChar := by
  rw [spelling, List.map_map]
  exact (List.map_congr_left fun b _ => toUInt8_ofUInt8 b).trans (List.map_id _)

theorem spelling_injective {cs ds : List Char} (h : spelling cs = spelling ds) : cs = ds := by
  rw [← Text.lossy_utf8 cs, ← toUInt8_spelling, h, toUInt8_spelling, Text.lossy_utf8]

/-- A text with a character for each byte. -/
def respelled (s : String) : String := String.ofList (spelling s.toList)

theorem respelled_inj {s t : String} : respelled s = respelled t ↔ s = t := by
  constructor
  · intro h
    exact String.toList_inj.1 (spelling_injective (String.ofList_injective h))
  · rintro rfl
    rfl

theorem respells_respelled (s : String) : Path.Respells respelled s where
  empty := respelled_inj (t := "")
  dot := respelled_inj (t := ".")
  up := respelled_inj (t := "..")

theorem spelling_append_cons (cs rest : List Char) :
    spelling (cs ++ '/' :: rest) = spelling cs ++ '/' :: spelling rest := by
  rw [spelling, List.flatMap_append, List.flatMap_cons, List.map_append, List.map_append]
  rfl

/-- No byte of another character is a separator. -/
theorem not_mem_spelling {cs : List Char} (h : '/' ∉ cs) : '/' ∉ spelling cs := by
  intro hmem
  have hbyte : 0x2F ∈ cs.flatMap String.utf8EncodeChar := by
    rw [← toUInt8_spelling]
    exact List.mem_map.2 ⟨'/', hmem, rfl⟩
  obtain ⟨before, after, hsplit⟩ := List.append_of_mem hbyte
  apply h
  rw [← Text.lossy_utf8 cs, hsplit, Text.lossy_append_cons before (by decide) after]
  exact List.mem_append_right _ List.mem_cons_self

theorem segments_spelled_ofPath (p : Path) :
    (ofPath p).spelled.segments = p.segments.map respelled := by
  rw [spelled_ofPath, Path.segments_eq, Path.segments_eq, String.toList_ofList,
    Text.pieces_respelled spelling_append_cons
      fun cs hcs => not_mem_spelling (Text.not_mem_of_mem_pieces hcs), List.map_map, List.map_map]
  congr 1
  funext cs
  rw [Function.comp, Function.comp, respelled, String.toList_ofList]

theorem isContained_ofPath (p : Path) : (ofPath p).isContained = p.isContained :=
  Path.isContained_of_respelled (segments_spelled_ofPath p) fun s _ => respells_respelled s

theorem text_ofPath (p : Path) : (ofPath p).text = p.text := by
  rw [text, ofPath, Text.lossy_utf8, String.ofList_toList]

theorem settled_ofPath (p : Path) : (ofPath p).settled = ofPath p := by
  rw [settled, text_ofPath]

/-- A path that is written as a text. -/
def IsWritten (p : RawPath) : Prop := ∃ q : Path, p = ofPath q

theorem IsWritten.settled (h : p.IsWritten) : p.settled = p := by
  obtain ⟨q, rfl⟩ := h
  exact settled_ofPath q

theorem ofPath_injective {p q : Path} (h : ofPath p = ofPath q) : p = q := by
  have htext := congrArg text h
  rw [text_ofPath, text_ofPath] at htext
  cases p
  cases q
  cases htext
  rfl

theorem toPath?_eq_some_iff {p : RawPath} {q : Path} : p.toPath? = some q ↔ p = ofPath q := by
  rw [toPath?]
  constructor
  · intro h
    split at h
    · next hs =>
        cases h
        exact hs.symm
    · cases h
  · rintro rfl
    rw [settled_ofPath, if_pos rfl, text_ofPath]

/-! ### The text of bytes -/

/-- The text that is shown of a text with a character for each byte. -/
def shown (s : String) : String := String.ofList (Text.lossy (s.toList.map Char.toUInt8))

theorem toUInt8_spelled (bytes : List UInt8) :
    (bytes.map Char.ofUInt8).map Char.toUInt8 = bytes := by
  rw [List.map_map]
  exact (List.map_congr_left fun b _ => toUInt8_ofUInt8 b).trans (List.map_id _)

theorem exists_bytes_of_mem_pieces {p : RawPath} {cs : List Char}
    (h : cs ∈ Text.pieces '/' (p.bytes.map Char.ofUInt8)) :
    ∃ bytes : List UInt8, cs = bytes.map Char.ofUInt8 := by
  refine ⟨cs.map Char.toUInt8, ?_⟩
  rw [List.map_map]
  refine (List.map_id cs).symm.trans (List.map_congr_left fun c hc => ?_)
  obtain ⟨b, -, rfl⟩ := List.mem_map.1 (Text.mem_of_mem_pieces h hc)
  rw [Function.comp, toUInt8_ofUInt8, id]

/-- Nothing but the bytes of a text in ASCII is shown as the text. -/
theorem shown_eq_iff {bytes : List UInt8} {t : String} (ascii : ∀ c ∈ t.toList, c.toNat < 128)
    (same : shown t = t) : shown (String.ofList (bytes.map Char.ofUInt8)) = t ↔
      String.ofList (bytes.map Char.ofUInt8) = t := by
  constructor
  · intro h
    rw [shown, String.toList_ofList, toUInt8_spelled] at h
    rw [← h, String.toList_ofList] at ascii
    rw [← h, Text.eq_of_lossy_ascii ascii]
    exact congrArg _ (List.map_congr_left fun b _ => ofUInt8_eq_ofNat b)
  · intro h
    rw [h, same]

theorem segments_text (p : RawPath) :
    (⟨p.text⟩ : Path).segments = p.spelled.segments.map shown := by
  have cut : ∀ cs rest : List Char, Text.lossy ((cs ++ '/' :: rest).map Char.toUInt8) =
      Text.lossy (cs.map Char.toUInt8) ++ '/' :: Text.lossy (rest.map Char.toUInt8) := by
    intro cs rest
    rw [List.map_append, List.map_cons]
    exact Text.lossy_append_cons _ (by decide) _
  have whole : ∀ cs ∈ Text.pieces '/' (p.bytes.map Char.ofUInt8),
      '/' ∉ Text.lossy (cs.map Char.toUInt8) := by
    intro cs hcs hmem
    obtain ⟨bytes, rfl⟩ := exists_bytes_of_mem_pieces hcs
    rw [toUInt8_spelled] at hmem
    obtain ⟨b, hb, hsep⟩ := Text.exists_mem_of_mem_lossy hmem (by decide)
    obtain rfl : b = 0x2F := UInt8.toNat_inj.1 hsep
    exact Text.not_mem_of_mem_pieces hcs (List.mem_map.2 ⟨0x2F, hb, rfl⟩)
  have hpieces := Text.pieces_respelled cut whole
  rw [toUInt8_spelled] at hpieces
  rw [Path.segments_eq, Path.segments_eq, text, spelled, String.toList_ofList, String.toList_ofList,
    hpieces, List.map_map, List.map_map]
  congr 1
  funext cs
  rw [Function.comp, Function.comp, shown, String.toList_ofList]

/-- The text of a path is a contained path exactly if the path is one. -/
theorem isContained_text (p : RawPath) : (⟨p.text⟩ : Path).isContained = p.isContained := by
  apply Path.isContained_of_respelled (segments_text p)
  intro s hs
  obtain ⟨cs, hcs, rfl⟩ := List.mem_map.1 hs
  rw [spelled, String.toList_ofList] at hcs
  obtain ⟨bytes, rfl⟩ := exists_bytes_of_mem_pieces hcs
  exact ⟨shown_eq_iff (by simp) (by decide), shown_eq_iff (by simp) (by decide),
    shown_eq_iff (by simp) (by decide)⟩

theorem isContained_settled (p : RawPath) : p.settled.isContained = p.isContained := by
  rw [settled, isContained_ofPath, isContained_text]

end RawPath

end GuidedLab
