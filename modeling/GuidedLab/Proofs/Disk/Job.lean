import GuidedLab.Disk.Job

/-!
# What a job yields

A job *yields* an answer if it ends in it on some disk. A job that is made of others yields an answer
only if they yield theirs, so what is so of every answer of a job is read off its steps, whatever the
disk holds.

In the same way it is read off the steps what a job does to the disk (`Keeps`), that it only reads
(`Reads`), and which rules of the program it can break (`BreaksOnly`).
-/

namespace GuidedLab

theorem during_eq_ok_iff {α : Type} {context : String} {r : Except Failure α} {a : α} :
    during context r = .ok a ↔ r = .ok a := by
  cases r with
  | ok b => exact Iff.rfl
  | error f => exact ⟨nofun, nofun⟩

theorem ofScript_eq_ok_iff {α : Type} {r : Except Fault α} {a : α} :
    ofScript r = .ok a ↔ r = .ok a := by
  cases r with
  | ok b =>
      constructor
      · rintro ⟨⟩
        rfl
      · rintro ⟨⟩
        rfl
  | error f => exact ⟨nofun, nofun⟩

namespace Job

variable {α β : Type}

/-- There is a disk on which a job ends in an answer. -/
def Yields (t : Job α) (a : α) : Prop := ∃ d d' : Disk, t.run d = (.ok a, d')

theorem run_of_toOption {t : Job α} {d : Disk} {a : α} (h : (t.run d).1.toOption = some a) :
    t.run d = (.ok a, (t.run d).2) := by
  have key : ∀ r : Except Failure α, r.toOption = some a → r = .ok a
    | .ok _, h => congrArg Except.ok (Option.some.inj h)
  exact Prod.ext (key _ h) rfl

theorem run_bind (t : Job α) (f : α → Job β) (d : Disk) :
    (t >>= f).run d =
      match t.run d with
      | (.ok a, d) => (f a).run d
      | (.error e, d) => (.error e, d) := by
  show (ExceptT.bindCont (fun a => f a) (t.run d).1).run (t.run d).2 = _
  cases h : t.run d with
  | mk r d' => cases r <;> rfl

theorem Yields.of_bind {t : Job α} {f : α → Job β} {b : β} (h : (t >>= f).Yields b) :
    ∃ a, t.Yields a ∧ (f a).Yields b := by
  obtain ⟨d, d', h⟩ := h
  rw [run_bind] at h
  cases hr : t.run d with
  | mk r d₁ =>
      rw [hr] at h
      cases r with
      | ok a => exact ⟨a, ⟨d, d₁, hr⟩, ⟨d₁, d', h⟩⟩
      | error e => cases h

theorem Yields.of_pure {a b : α} (h : (pure a : Job α).Yields b) : b = a := by
  obtain ⟨d, d', h⟩ := h
  cases h
  rfl

theorem Yields.of_ofAnswer {r : Except Failure α} {a : α} (h : (ofAnswer r).Yields a) :
    r = .ok a := by
  obtain ⟨d, d', h⟩ := h
  cases h
  rfl

theorem Yields.of_within {context : String} {t : Job α} {a : α} (h : (within context t).Yields a) :
    t.Yields a := by
  obtain ⟨d, d', h⟩ := h
  obtain ⟨hr, -⟩ := Prod.mk.inj h
  exact ⟨d, (t.run d).2, Prod.ext (during_eq_ok_iff.1 hr) rfl⟩

/-! ### What a job does to the disk -/

@[simp] theorem run_pure (a : α) (d : Disk) : (pure a : Job α).run d = (.ok a, d) := rfl

@[simp] theorem run_ofAnswer (r : Except Failure α) (d : Disk) : (ofAnswer r).run d = (r, d) := rfl

@[simp] theorem run_ask (question : Disk → α) (d : Disk) :
    (ask question).run d = (.ok (question d), d) := rfl

@[simp] theorem run_query (context : String) (question : Disk → Except Refusal α) (d : Disk) :
    (query context question).run d = (during context (ofDisk (question d)), d) := rfl

@[simp] theorem run_refuse (rule : String) (d : Disk) :
    (refuse rule : Job α).run d = (.error (.ofRule rule), d) := rfl

@[simp] theorem run_require_some (rule : String) (a : α) (d : Disk) :
    (require rule (some a)).run d = (.ok a, d) := rfl

@[simp] theorem run_require_none (rule : String) (d : Disk) :
    (require rule none : Job α).run d = (.error (.ofRule rule), d) := rfl

@[simp] theorem require_some_bind (rule : String) (a : α) (f : α → Job β) :
    (require rule (some a) >>= f) = f a := rfl

@[simp] theorem require_none_bind (rule : String) (f : α → Job β) :
    (require rule none >>= f) = refuse rule := rfl

@[simp] theorem refuse_bind (rule : String) (f : α → Job β) :
    (refuse rule >>= f) = refuse rule := rfl

theorem run_change (context : String) (work : Disk → Except Refusal Disk) (d : Disk) :
    (change context work).run d =
      match work d with
      | .ok d => (.ok (), d)
      | .error r => (during context (ofDisk (.error r)), d) := rfl

theorem run_changeInPart (context : String) (work : Disk → Disk × Except Refusal Unit) (d : Disk) :
    (changeInPart context work).run d = (during context (ofDisk (work d).2), (work d).1) := rfl

theorem run_within (context : String) (t : Job α) (d : Disk) :
    (within context t).run d = (during context (t.run d).1, (t.run d).2) := rfl

/-- A step of a job that succeeds has succeeded. -/
theorem run_bind_eq_ok_iff {t : Job α} {f : α → Job β} {d d' : Disk} {b : β} :
    (t >>= f).run d = (.ok b, d') ↔
      ∃ a e, t.run d = (.ok a, e) ∧ (f a).run e = (.ok b, d') := by
  rw [run_bind]
  cases ht : t.run d with
  | mk r e =>
      cases r with
      | ok a =>
          constructor
          · intro h
            exact ⟨a, e, rfl, h⟩
          · rintro ⟨a', e', ⟨⟩, h⟩
            exact h
      | error f => exact ⟨nofun, nofun⟩

theorem run_pure_eq_ok_iff {d d' : Disk} {a b : α} :
    (pure a : Job α).run d = (.ok b, d') ↔ b = a ∧ d' = d := by
  constructor
  · rintro ⟨⟩
    exact ⟨rfl, rfl⟩
  · rintro ⟨rfl, rfl⟩
    rfl

theorem run_ofAnswer_eq_ok_iff {r : Except Failure α} {d d' : Disk} {a : α} :
    (ofAnswer r).run d = (.ok a, d') ↔ r = .ok a ∧ d' = d := by
  rw [run_ofAnswer, Prod.mk.injEq, eq_comm (a := d)]

theorem run_ask_eq_ok_iff {question : Disk → α} {d d' : Disk} {a : α} :
    (ask question).run d = (.ok a, d') ↔ question d = a ∧ d' = d := by
  rw [run_ask, Prod.mk.injEq, Except.ok.injEq, eq_comm (a := d)]

theorem run_query_eq_ok_iff {context : String} {question : Disk → Except Refusal α} {d d' : Disk}
    {a : α} : (query context question).run d = (.ok a, d') ↔ question d = .ok a ∧ d' = d := by
  rw [run_query, Prod.mk.injEq, during_eq_ok_iff, eq_comm (a := d)]
  cases question d <;> simp [ofDisk]

theorem run_change_eq_ok_iff {context : String} {work : Disk → Except Refusal Disk}
    {d d' : Disk} {u : Unit} : (change context work).run d = (.ok u, d') ↔ work d = .ok d' := by
  rw [run_change]
  cases work d with
  | ok e =>
      constructor
      · rintro ⟨⟩
        rfl
      · rintro ⟨⟩
        rfl
  | error r => exact ⟨nofun, nofun⟩

theorem run_changeInPart_eq_ok_iff {context : String} {work : Disk → Disk × Except Refusal Unit}
    {d d' : Disk} {u : Unit} :
    (changeInPart context work).run d = (.ok u, d') ↔ work d = (d', .ok ()) := by
  rw [run_changeInPart, Prod.mk.injEq, during_eq_ok_iff]
  cases h : work d with
  | mk e r => cases r <;> simp [ofDisk]

theorem run_within_eq_ok_iff {context : String} {t : Job α} {d d' : Disk} {a : α} :
    (within context t).run d = (.ok a, d') ↔ t.run d = (.ok a, d') := by
  rw [run_within, Prod.mk.injEq, during_eq_ok_iff, Prod.ext_iff]

theorem run_require_eq_ok_iff {rule : String} {o : Option α} {d d' : Disk} {a : α} :
    (require rule o).run d = (.ok a, d') ↔ o = some a ∧ d' = d := by
  cases o with
  | none => exact ⟨nofun, nofun⟩
  | some b =>
      constructor
      · rintro ⟨⟩
        exact ⟨rfl, rfl⟩
      · rintro ⟨⟨⟩, rfl⟩
        rfl

/-- Two disks are related by every run of a job. -/
def Keeps (R : Disk → Disk → Prop) (t : Job α) : Prop := ∀ d, R d (t.run d).2

section Keeps

variable {R : Disk → Disk → Prop} {t : Job α}

theorem Keeps.bind {f : α → Job β} (trans : ∀ d e d', R d e → R e d' → R d d')
    (ht : Keeps R t) (hf : ∀ a, Keeps R (f a)) : Keeps R (t >>= f) := by
  intro d
  have hd := ht d
  rw [run_bind]
  cases hr : t.run d with
  | mk r e =>
      rw [hr] at hd
      cases r with
      | ok a => exact trans d e _ hd (hf a e)
      | error f => exact hd

theorem Keeps.of_unchanged (refl : ∀ d, R d d) (h : ∀ d, (t.run d).2 = d) : Keeps R t := by
  intro d
  rw [h]
  exact refl d

theorem keeps_ofAnswer (refl : ∀ d, R d d) (r : Except Failure α) : Keeps R (ofAnswer r) :=
  Keeps.of_unchanged refl fun _ => rfl

theorem keeps_ask (refl : ∀ d, R d d) (question : Disk → α) : Keeps R (ask question) :=
  Keeps.of_unchanged refl fun _ => rfl

theorem keeps_require (refl : ∀ d, R d d) (rule : String) (o : Option α) :
    Keeps R (require rule o) := by
  cases o with
  | none => exact keeps_ofAnswer refl _
  | some a => exact keeps_ofAnswer refl _

theorem Keeps.within (context : String) (ht : Keeps R t) : Keeps R (within context t) :=
  fun d => ht d

theorem Keeps.change (refl : ∀ d, R d d) {context : String} {work : Disk → Except Refusal Disk}
    (h : ∀ d d', work d = .ok d' → R d d') : Keeps R (Job.change context work) := by
  intro d
  rw [run_change]
  cases hw : work d with
  | ok d' => exact h d d' hw
  | error r => exact refl d

theorem Keeps.changeInPart {context : String} {work : Disk → Disk × Except Refusal Unit}
    (h : ∀ d, R d (work d).1) : Keeps R (Job.changeInPart context work) := h

end Keeps

/-! ### Jobs that only read -/

/-- On two disks a job gives one answer and leaves both as they are. -/
def Reads (d e : Disk) (t : Job α) : Prop :=
  ∃ r, t.run d = (r, d) ∧ t.run e = (r, e)

section Reads

variable {d e : Disk} {t : Job α}

theorem Reads.bind {f : α → Job β} (ht : Reads d e t)
    (hf : ∀ a, t.run d = (.ok a, d) → Reads d e (f a)) : Reads d e (t >>= f) := by
  obtain ⟨r, hd, he⟩ := ht
  cases r with
  | ok a =>
      obtain ⟨r, hfd, hfe⟩ := hf a hd
      exact ⟨r, by rw [run_bind, hd]; exact hfd, by rw [run_bind, he]; exact hfe⟩
  | error f => exact ⟨.error f, by rw [run_bind, hd], by rw [run_bind, he]⟩

theorem reads_pure (a : α) : Reads d e (pure a) := ⟨.ok a, rfl, rfl⟩

theorem reads_ofAnswer (r : Except Failure α) : Reads d e (ofAnswer r) := ⟨r, rfl, rfl⟩

theorem reads_require (rule : String) (o : Option α) : Reads d e (require rule o) := by
  cases o with
  | none => exact reads_ofAnswer _
  | some a => exact reads_ofAnswer _

theorem reads_query {context : String} {question : Disk → Except Refusal α}
    (h : question e = question d) : Reads d e (query context question) :=
  ⟨_, rfl, by rw [run_query, h]⟩

theorem Reads.within (context : String) (ht : Reads d e t) : Reads d e (within context t) := by
  obtain ⟨r, hd, he⟩ := ht
  exact ⟨during context r, by rw [run_within, hd], by rw [run_within, he]⟩

theorem Reads.run_eq (ht : Reads d e t) : (t.run d).2 = d ∧ (t.run e).1 = (t.run d).1 := by
  obtain ⟨r, hd, he⟩ := ht
  rw [hd, he]
  exact ⟨rfl, rfl⟩

end Reads

theorem run_cleaning (cleanup : Disk → Disk) (t : Job α) (d : Disk) :
    (cleaning cleanup t).run d =
      match t.run d with
      | (.ok a, d) => (.ok a, d)
      | (.error f, d) => (.error f, cleanup d) := rfl

theorem Yields.of_cleaning {cleanup : Disk → Disk} {t : Job α} {a : α}
    (h : (cleaning cleanup t).Yields a) : t.Yields a := by
  obtain ⟨d, d', h⟩ := h
  rw [run_cleaning] at h
  refine ⟨d, d', ?_⟩
  cases hr : t.run d with
  | mk r d₁ =>
      rw [hr] at h
      cases r with
      | ok b => exact h
      | error f => cases h

/-! ### Broken rules -/

/-- The rules that a job breaks, when it fails for nothing else and in the course of nothing else, are of
some kind. -/
def BreaksOnly (kind : String → Prop) (t : Job α) : Prop :=
  ∀ d rule, (t.run d).1 = .error (.ofRule rule) → kind rule

theorem during_ne_ofRule (context : String) (r : Except Failure α) (rule : String) :
    during context r ≠ .error (.ofRule rule) := by
  cases r with
  | ok a => exact nofun
  | error f =>
      intro h
      injection h with h
      exact List.cons_ne_nil _ _ (congrArg Failure.contexts h)

section BreaksOnly

variable {kind : String → Prop} {t : Job α}

theorem BreaksOnly.bind {f : α → Job β} (ht : BreaksOnly kind t)
    (hf : ∀ a, t.Yields a → BreaksOnly kind (f a)) : BreaksOnly kind (t >>= f) := by
  intro d rule h
  rw [run_bind] at h
  cases hr : t.run d with
  | mk r e =>
      rw [hr] at h
      cases r with
      | ok a => exact hf a ⟨d, e, hr⟩ e rule h
      | error f =>
          injection h with h
          exact ht d rule (by rw [hr, h])

theorem breaksOnly_pure (a : α) : BreaksOnly kind (pure a : Job α) := nofun

theorem breaksOnly_ask (question : Disk → α) : BreaksOnly kind (ask question) := nofun

theorem breaksOnly_within (context : String) (t : Job α) : BreaksOnly kind (within context t) :=
  fun d rule h => absurd h (during_ne_ofRule context (t.run d).1 rule)

theorem breaksOnly_query (context : String) (question : Disk → Except Refusal α) :
    BreaksOnly kind (query context question) :=
  fun d rule h => absurd h (during_ne_ofRule context (ofDisk (question d)) rule)

theorem breaksOnly_change (context : String) (work : Disk → Except Refusal Disk) :
    BreaksOnly kind (change context work) := by
  intro d rule h
  rw [run_change] at h
  cases hw : work d with
  | ok e =>
      rw [hw] at h
      cases h
  | error r =>
      rw [hw] at h
      exact absurd h (during_ne_ofRule context (ofDisk (.error r)) rule)

theorem breaksOnly_changeInPart (context : String) (work : Disk → Disk × Except Refusal Unit) :
    BreaksOnly kind (changeInPart context work) :=
  fun d rule h => absurd h (during_ne_ofRule context (ofDisk (work d).2) rule)

theorem breaksOnly_ofAnswer {r : Except Failure α} (h : ∀ rule, r = .error (.ofRule rule) → kind rule) :
    BreaksOnly kind (ofAnswer r) := fun _ rule hr => h rule hr

theorem breaksOnly_refuse {rule : String} (h : kind rule) :
    BreaksOnly kind (refuse rule : Job α) := by
  apply breaksOnly_ofAnswer
  rintro _ ⟨⟩
  exact h

theorem breaksOnly_require {rule : String} (h : kind rule) (o : Option α) :
    BreaksOnly kind (require rule o) := by
  cases o with
  | none => exact breaksOnly_refuse h
  | some a => exact breaksOnly_pure a

end BreaksOnly

end Job

end GuidedLab
