/-!
# Branches

`Branches α` are the pages that may follow one place of a script: each stands on a branch, has a
number, holds a value and is followed by branches of its own. The type is a plain inductive one, a
page together with the pages after it and the other branches beside it, so everything that walks over
pages recurses on the structure, and nothing can be its own successor.

Pages are listed in *pre-order*: a page, then what follows it, branch by branch (`preorder`).

Branches are *sound* when the branches of each place ascend, every page has a greater number than the
page before it, and the numbers are `0` up to the number of pages, each once. Putting in a page on a
free branch under the next number keeps them sound (`Sound.grow`), and so does anything that changes
values only (`sound_map`).
-/

namespace GuidedLab

/-- The pages that may follow a place, each with what follows it in turn. -/
inductive Branches (α : Type) where
  | nil
  | cons (branch : UInt32) (node : Nat) (value : α) (after others : Branches α)
deriving DecidableEq, Repr

namespace Branches

variable {α β : Type}

instance : Inhabited (Branches α) := ⟨.nil⟩

/-- No pages. -/
def isEmpty : Branches α → Bool
  | nil => true
  | cons .. => false

/-- The number of pages. -/
def size : Branches α → Nat
  | nil => 0
  | cons _ _ _ after others => 1 + after.size + others.size

/-- The pages in pre-order, by number and value. -/
def preorder : Branches α → List (Nat × α)
  | nil => []
  | cons _ n v after others => (n, v) :: (after.preorder ++ others.preorder)

/-- The numbers of the pages in pre-order. -/
def nodes (t : Branches α) : List Nat := t.preorder.map Prod.fst

/-- The values of the pages in pre-order. -/
def values (t : Branches α) : List α := t.preorder.map Prod.snd

/-- The branches of the place itself and the pages they lead to. -/
def links : Branches α → List (UInt32 × Nat)
  | nil => []
  | cons b n _ _ others => (b, n) :: others.links

/-- The page that a branch of the place leads to. -/
def link? (t : Branches α) (branch : UInt32) : Option Nat :=
  (t.links.find? fun l => l.1 = branch).map Prod.snd

/-- The value of a page and what follows it. -/
def find? (node : Nat) : Branches α → Option (α × Branches α)
  | nil => none
  | cons _ n v after others =>
    if n = node then some (v, after) else (after.find? node).or (others.find? node)

/-- The page that a page follows; a page of the place itself follows what is given. -/
def parent? (node : Nat) (before : Option Nat) : Branches α → Option Nat
  | nil => none
  | cons _ n _ after others =>
    if n = node then before
    else (after.parent? node (some n)).or (others.parent? node before)

/-- The pages with other values, made from their numbers and values. -/
def map (f : Nat → α → β) : Branches α → Branches β
  | nil => nil
  | cons b n v after others => cons b n (f n v) (after.map f) (others.map f)

/-- The pages with other values, made in pre-order from their positions and values. The first failure
ends it. -/
def traverse {ε : Type} (f : Nat → α → Except ε β) (position : Nat) :
    Branches α → Except ε (Branches β)
  | nil => .ok nil
  | cons b n v after others => do
    let w ← f position v
    let after' ← after.traverse f (position + 1)
    let others' ← others.traverse f (position + 1 + after.size)
    .ok (cons b n w after' others')

/-- The pages without their values. -/
def shape (t : Branches α) : Branches Unit := t.map fun _ _ => ()

/-- A page put among the branches of the place, where its branch belongs. -/
def place (branch : UInt32) (node : Nat) (v : α) (after : Branches α) : Branches α → Branches α
  | nil => cons branch node v after nil
  | cons b n w follow others =>
    if branch < b then cons branch node v after (cons b n w follow others)
    else cons b n w follow (place branch node v after others)

/-- The branches of one place put among those of another. -/
def union : Branches α → Branches α → Branches α
  | nil, t => t
  | cons b n v after others, t => others.union (place b n v after t)

/-- A page put on a branch of the page of a number. -/
def grow (origin : Nat) (branch : UInt32) (node : Nat) (v : α) : Branches α → Branches α
  | nil => nil
  | cons b n w after others =>
    if n = origin then cons b n w (place branch node v nil after) others
    else cons b n w (after.grow origin branch node v) (others.grow origin branch node v)

/-- The branches of each place ascend. -/
def Ascending : Branches α → Prop
  | nil => True
  | cons b _ _ after others =>
    (∀ l ∈ others.links, b < l.1) ∧ after.Ascending ∧ others.Ascending

/-- No number is less than a bound, and a page has a greater number than the page it follows. -/
def Rising (least : Nat) : Branches α → Prop
  | nil => True
  | cons _ n _ after others => least ≤ n ∧ after.Rising (n + 1) ∧ others.Rising least

/-- Branches as they come about when pages are put in one after the other. -/
structure Sound (t : Branches α) : Prop where
  ascending : t.Ascending
  rising : t.Rising 0
  numbered : t.nodes.Perm (List.range t.size)

@[simp] theorem preorder_nil : (nil : Branches α).preorder = [] := rfl

theorem preorder_cons (b : UInt32) (n : Nat) (v : α) (after others : Branches α) :
    (cons b n v after others).preorder = (n, v) :: (after.preorder ++ others.preorder) := rfl

@[simp] theorem nodes_nil : (nil : Branches α).nodes = [] := rfl

theorem nodes_cons (b : UInt32) (n : Nat) (v : α) (after others : Branches α) :
    (cons b n v after others).nodes = n :: (after.nodes ++ others.nodes) := by
  simp [nodes, preorder_cons]

@[simp] theorem length_preorder (t : Branches α) : t.preorder.length = t.size := by
  induction t with
  | nil => rfl
  | cons b n v after others iha iho =>
    rw [preorder_cons, List.length_cons, List.length_append, iha, iho, size]
    omega

@[simp] theorem length_nodes (t : Branches α) : t.nodes.length = t.size := by simp [nodes]

/-! ### Changing values -/

@[simp] theorem size_map (f : Nat → α → β) (t : Branches α) : (t.map f).size = t.size := by
  induction t with
  | nil => rfl
  | cons b n v after others iha iho => simp [map, size, iha, iho]

@[simp] theorem links_map (f : Nat → α → β) (t : Branches α) : (t.map f).links = t.links := by
  induction t with
  | nil => rfl
  | cons b n v after others _ iho => simp [map, links, iho]

@[simp] theorem nodes_map (f : Nat → α → β) (t : Branches α) : (t.map f).nodes = t.nodes := by
  induction t with
  | nil => rfl
  | cons b n v after others iha iho => simp [map, nodes_cons, iha, iho]

theorem ascending_map (f : Nat → α → β) (t : Branches α) :
    (t.map f).Ascending ↔ t.Ascending := by
  induction t with
  | nil => exact Iff.rfl
  | cons b n v after others iha iho => simp [map, Ascending, iha, iho]

theorem rising_map (f : Nat → α → β) (least : Nat) (t : Branches α) :
    (t.map f).Rising least ↔ t.Rising least := by
  induction t generalizing least with
  | nil => exact Iff.rfl
  | cons b n v after others iha iho => simp [map, Rising, iha, iho]

/-- Soundness is about branches and numbers only. -/
theorem sound_map (f : Nat → α → β) (t : Branches α) : (t.map f).Sound ↔ t.Sound := by
  constructor
  · intro h
    exact ⟨(ascending_map f t).1 h.ascending, (rising_map f 0 t).1 h.rising, by
      simpa using h.numbered⟩
  · intro h
    exact ⟨(ascending_map f t).2 h.ascending, (rising_map f 0 t).2 h.rising, by
      simpa using h.numbered⟩

theorem sound_shape (t : Branches α) : t.shape.Sound ↔ t.Sound := sound_map _ t

@[simp] theorem links_shape (t : Branches α) : t.shape.links = t.links := links_map _ t

@[simp] theorem shape_map (f : Nat → α → β) (t : Branches α) : (t.map f).shape = t.shape := by
  induction t with
  | nil => rfl
  | cons b n v after others iha iho =>
    simp only [shape, map] at iha iho ⊢
    rw [iha, iho]

/-- Values are exchanged page by page. -/
theorem shape_of_traverse {ε : Type} {f : Nat → α → Except ε β} {p : Nat} {t : Branches α}
    {u : Branches β} (h : t.traverse f p = .ok u) : u.shape = t.shape := by
  induction t generalizing p u with
  | nil => cases h; rfl
  | cons b n v after others iha iho =>
    rw [traverse] at h
    cases hv : f p v with
    | error e => rw [hv] at h; cases h
    | ok w =>
      cases ha : after.traverse f (p + 1) with
      | error e => rw [hv, ha] at h; cases h
      | ok after' =>
        cases ho : others.traverse f (p + 1 + after.size) with
        | error e => rw [hv, ha, ho] at h; cases h
        | ok others' =>
          rw [hv, ha, ho] at h
          cases h
          have h1 := iha ha
          have h2 := iho ho
          simp only [shape, map] at h1 h2 ⊢
          rw [h1, h2]

/-! ### Putting in pages -/

@[simp] theorem size_place (b : UInt32) (n : Nat) (v : α) (after t : Branches α) :
    (place b n v after t).size = 1 + after.size + t.size := by
  induction t with
  | nil => simp [place, size]
  | cons c m w follow others _ iho =>
    rw [place]
    split
    · simp [size]
    · simp only [size, iho]; omega

theorem nodes_place_perm (b : UInt32) (n : Nat) (v : α) (after t : Branches α) :
    (place b n v after t).nodes.Perm (n :: (after.nodes ++ t.nodes)) := by
  induction t with
  | nil => simp [place, nodes_cons]
  | cons c m w follow others _ iho =>
    rw [place]
    split
    · simp [nodes_cons]
    · rw [nodes_cons, nodes_cons]
      have h := (iho.append_left follow.nodes).cons m
      refine h.trans ?_
      have : (m :: (follow.nodes ++ n :: (after.nodes ++ others.nodes))).Perm
          (n :: (m :: (follow.nodes ++ (after.nodes ++ others.nodes)))) :=
        (List.perm_middle.cons m).trans (List.Perm.swap n m _)
      refine this.trans (List.Perm.cons n ?_)
      have h2 : (m :: (follow.nodes ++ (after.nodes ++ others.nodes))) =
          (m :: follow.nodes) ++ after.nodes ++ others.nodes := by simp
      have h3 : after.nodes ++ m :: (follow.nodes ++ others.nodes) =
          after.nodes ++ (m :: follow.nodes) ++ others.nodes := by simp
      rw [h2, h3]
      exact List.perm_append_comm.append_right others.nodes

theorem mem_links_place {b : UInt32} {n : Nat} {v : α} {after t : Branches α}
    {l : UInt32 × Nat} (h : l ∈ (place b n v after t).links) : l = (b, n) ∨ l ∈ t.links := by
  induction t with
  | nil => simpa [place, links] using h
  | cons c m w follow others _ iho =>
    rw [place] at h
    split at h
    · simpa [links] using h
    · rcases List.mem_cons.1 h with rfl | h
      · exact Or.inr List.mem_cons_self
      · exact (iho h).imp_right (List.mem_cons_of_mem _)

theorem ascending_place {b : UInt32} {n : Nat} {v : α} {after t : Branches α}
    (ha : after.Ascending) (ht : t.Ascending) (free : ∀ l ∈ t.links, l.1 ≠ b) :
    (place b n v after t).Ascending := by
  induction t with
  | nil => exact ⟨nofun, ha, trivial⟩
  | cons c m w follow others _ iho =>
    rw [place]
    have hne : c ≠ b := free (c, m) List.mem_cons_self
    split
    · next hlt =>
      refine ⟨fun l hl => ?_, ha, ht⟩
      rcases List.mem_cons.1 hl with rfl | hl
      · exact hlt
      · have := ht.1 l hl
        rw [UInt32.lt_iff_toNat_lt] at *
        omega
    · next hnlt =>
      refine ⟨fun l hl => ?_, ht.2.1, iho ht.2.2 fun l hl => free l (List.mem_cons_of_mem _ hl)⟩
      rcases mem_links_place hl with rfl | hl
      · rw [UInt32.lt_iff_toNat_lt] at *
        have : c.toNat ≠ b.toNat := fun e => hne (UInt32.toNat_inj.1 e)
        show c.toNat < b.toNat
        omega
      · exact ht.1 l hl

theorem rising_place {least : Nat} {b : UInt32} {n : Nat} {v : α} {after t : Branches α}
    (hn : least ≤ n) (ha : after.Rising (n + 1)) (ht : t.Rising least) :
    (place b n v after t).Rising least := by
  induction t with
  | nil => exact ⟨hn, ha, trivial⟩
  | cons c m w follow others _ iho =>
    rw [place]
    split
    · exact ⟨hn, ha, ht⟩
    · exact ⟨ht.1, ht.2.1, iho ht.2.2⟩

@[simp] theorem links_grow (origin : Nat) (b : UInt32) (n : Nat) (v : α) (t : Branches α) :
    (t.grow origin b n v).links = t.links := by
  induction t with
  | nil => rfl
  | cons c m w after others _ iho =>
    rw [grow]
    split
    · rfl
    · simp [links, iho]

/-- Where there is no page of the number, nothing grows. -/
theorem grow_of_not_mem {origin : Nat} {b : UInt32} {n : Nat} {v : α} {t : Branches α}
    (h : origin ∉ t.nodes) : t.grow origin b n v = t := by
  induction t with
  | nil => rfl
  | cons c m w after others iha iho =>
    rw [nodes_cons, List.mem_cons, List.mem_append] at h
    rw [grow, if_neg (fun e => h (Or.inl e.symm)), iha fun m => h (Or.inr (Or.inl m)),
      iho fun m => h (Or.inr (Or.inr m))]

theorem nodes_grow_perm {origin : Nat} {b : UInt32} {n : Nat} {v : α} {t : Branches α}
    (hd : t.nodes.Nodup) (h : origin ∈ t.nodes) :
    (t.grow origin b n v).nodes.Perm (n :: t.nodes) := by
  induction t with
  | nil => cases h
  | cons c m w after others iha iho =>
    rw [nodes_cons] at hd h ⊢
    obtain ⟨hm, hd⟩ := List.nodup_cons.1 hd
    obtain ⟨hda, hdo, hdisj⟩ := List.nodup_append.1 hd
    rw [grow]
    split
    · rw [nodes_cons]
      have hp := ((nodes_place_perm b n v nil after).append_right others.nodes).cons m
      exact hp.trans (List.Perm.swap n m _)
    · next hne =>
      rw [nodes_cons]
      rcases List.mem_cons.1 h with rfl | h
      · exact absurd rfl hne
      rcases List.mem_append.1 h with h | h
      · rw [grow_of_not_mem fun ho => hdisj _ h _ ho rfl]
        exact (((iha hda h).append_right others.nodes).cons m).trans (List.Perm.swap n m _)
      · rw [grow_of_not_mem (t := after) fun ha => hdisj _ ha _ h rfl]
        exact ((((iho hdo h).append_left after.nodes).trans List.perm_middle).cons m).trans
          (List.Perm.swap n m _)

theorem find?_isSome_iff {node : Nat} {t : Branches α} :
    (t.find? node).isSome = true ↔ node ∈ t.nodes := by
  induction t with
  | nil => simp [find?]
  | cons c m w after others iha iho =>
    rw [find?, nodes_cons]
    split
    · next h => simp [h]
    · next h =>
      rw [Option.isSome_or, Bool.or_eq_true, iha, iho, List.mem_cons, List.mem_append]
      simp [Ne.symm h]

theorem find?_eq_none_iff {node : Nat} {t : Branches α} : t.find? node = none ↔ node ∉ t.nodes := by
  rw [← find?_isSome_iff]
  simp

theorem ascending_grow {origin : Nat} {b : UInt32} {n : Nat} {v : α} {t : Branches α}
    (ht : t.Ascending) (free : ∀ w follow, t.find? origin = some (w, follow) →
      ∀ l ∈ follow.links, l.1 ≠ b) (hd : t.nodes.Nodup) : (t.grow origin b n v).Ascending := by
  induction t with
  | nil => trivial
  | cons c m w after others iha iho =>
    rw [nodes_cons] at hd
    obtain ⟨hm, hd⟩ := List.nodup_cons.1 hd
    obtain ⟨hda, hdo, hdisj⟩ := List.nodup_append.1 hd
    rw [grow]
    split
    · next h =>
      refine ⟨ht.1, ascending_place trivial ht.2.1 fun l hl => ?_, ht.2.2⟩
      exact free w after (by simp [find?, h]) l hl
    · next h =>
      refine ⟨by simpa using ht.1, ?_, ?_⟩
      · refine iha ht.2.1 (fun w' follow hf => free w' follow ?_) hda
        simp [find?, h, hf]
      · by_cases hin : origin ∈ others.nodes
        · refine iho ht.2.2 (fun w' follow hf => free w' follow ?_) hdo
          have hna : after.find? origin = none := find?_eq_none_iff.2 fun ha => hdisj _ ha _ hin rfl
          simp [find?, h, hna, hf]
        · rw [grow_of_not_mem hin]
          exact ht.2.2

theorem rising_grow {origin least : Nat} {b : UInt32} {n : Nat} {v : α} {t : Branches α}
    (ht : t.Rising least) (hn : ∀ m ∈ t.nodes, m < n) : (t.grow origin b n v).Rising least := by
  induction t generalizing least with
  | nil => trivial
  | cons c m w after others iha iho =>
    rw [nodes_cons] at hn
    rw [grow]
    split
    · exact ⟨ht.1, rising_place (hn m List.mem_cons_self) trivial ht.2.1, ht.2.2⟩
    · exact ⟨ht.1,
        iha ht.2.1 fun k hk => hn k (List.mem_cons_of_mem _ (List.mem_append_left _ hk)),
        iho ht.2.2 fun k hk => hn k (List.mem_cons_of_mem _ (List.mem_append_right _ hk))⟩

namespace Sound

theorem nil : (Branches.nil : Branches α).Sound := ⟨trivial, trivial, by simp [size]⟩

theorem nodup {t : Branches α} (h : t.Sound) : t.nodes.Nodup :=
  h.numbered.nodup_iff.2 List.nodup_range

/-- The numbers in use are those below the number of pages. -/
theorem mem_nodes_iff {t : Branches α} (h : t.Sound) {n : Nat} : n ∈ t.nodes ↔ n < t.size := by
  rw [h.numbered.mem_iff, List.mem_range]

/-- A page on a free branch of a page, under the next number, keeps branches sound. -/
theorem grow {t : Branches α} (h : t.Sound) {origin : Nat} {w : α} {follow : Branches α}
    (hf : t.find? origin = some (w, follow)) {b : UInt32} (free : ∀ l ∈ follow.links, l.1 ≠ b)
    (v : α) : (t.grow origin b t.size v).Sound := by
  have hin : origin ∈ t.nodes := find?_isSome_iff.1 (by simp [hf])
  have hp := nodes_grow_perm (b := b) (n := t.size) (v := v) h.nodup hin
  refine ⟨ascending_grow h.ascending (fun w' follow' hf' => ?_) h.nodup,
    rising_grow h.rising fun m hm => h.mem_nodes_iff.1 hm, ?_⟩
  · rw [hf] at hf'
    cases hf'
    exact free
  · have hs : (t.grow origin b t.size v).size = t.size + 1 := by
      rw [← length_nodes, hp.length_eq]
      simp
    rw [hs, List.range_succ]
    exact hp.trans ((h.numbered.cons t.size).trans (List.perm_append_singleton t.size _).symm)

end Sound

end Branches

end GuidedLab
