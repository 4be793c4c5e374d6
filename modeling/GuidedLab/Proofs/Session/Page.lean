import GuidedLab.Session.Recording
import GuidedLab.Proofs.Disk.Opens
import GuidedLab.Proofs.Script.Turns
import GuidedLab.Proofs.Source.Loaded
import GuidedLab.Proofs.Tree.Account
import GuidedLab.Proofs.Tree.Snapshot

/-!
# The page of a session

The bookmark of a session keeps a copy of the active chain, and the copy is taken anew only when a
change is delivered. It is nevertheless always the chain of the tree (`Session.InStep`): with no change
delivered the chain is the same one, and after the first of several deliveries the others find the
bookmark as they would leave it. So an interaction refreshes the bookmark once, in effect
(`InStep.refreshed_interact`).

Refreshing keeps the selected page at its place if it is still in the chain, because in trees of one
shape a page has one place.
-/

namespace GuidedLab

namespace Bookmark

/-- A bookmark has the chain of a tree and is at a page of it. -/
structure InStep (b : Bookmark) (t : Tree) : Prop where
  chain : b.chain = t.chain
  current : b.current < b.chain.length

variable {b : Bookmark} {t u : Tree} {node : Nat}

theorem InStep.exists_page? (h : b.InStep t) : ∃ node, b.page? = some node :=
  ⟨_, List.getElem?_eq_getElem h.current⟩

theorem InStep.getElem?_chain (h : b.InStep t) (page : b.page? = some node) :
    t.chain[b.current]? = some node := by
  rw [← h.chain]
  exact page

theorem inStep_refreshed (b : Bookmark) (ne : t.chain ≠ []) : (b.refreshed t).InStep t := by
  refine ⟨rfl, ?_⟩
  show (b.page?.bind fun node => t.chain.idxOf? node).getD (t.chain.length - 1) < t.chain.length
  cases hk : b.page?.bind fun node => t.chain.idxOf? node with
  | none => exact Nat.sub_lt (List.length_pos_iff.2 ne) Nat.one_pos
  | some k =>
      obtain ⟨node, -, hk⟩ := Option.bind_eq_some_iff.1 hk
      exact (List.idxOf?_eq_some_iff.1 hk).1

theorem current_refreshed_of_not_mem (page : b.page? = some node) (h : node ∉ t.chain) :
    (b.refreshed t).current = t.chain.length - 1 := by
  rw [refreshed, page, Option.bind_some, List.idxOf?_eq_none_iff.2 h]
  rfl

/-- A page that stays in the chain stays selected, at its place. -/
theorem InStep.refreshed_of_mem (hb : b.InStep t) (shape : u.pages.shape = t.pages.shape)
    (page : b.page? = some node) (h : node ∈ u.chain) :
    (b.refreshed u).page? = some node ∧ (b.refreshed u).current = b.current := by
  cases hk : u.chain.idxOf? node with
  | none => exact absurd h (List.idxOf?_eq_none_iff.1 hk)
  | some k =>
      have hplace : u.chain[k]? = some node := by
        obtain ⟨hlt, hat, -⟩ := List.idxOf?_eq_some_iff.1 hk
        rw [List.getElem?_eq_getElem hlt, hat]
      rw [refreshed, page, Option.bind_some, hk]
      exact ⟨hplace, Tree.place_eq_of_shape_eq shape hplace (hb.getElem?_chain page)⟩

/-- A bookmark that is in step stays as it is. -/
theorem InStep.refreshed_eq (h : b.InStep t) : b.refreshed t = b := by
  obtain ⟨node, page⟩ := h.exists_page?
  obtain ⟨-, hcurrent⟩ := h.refreshed_of_mem rfl page (List.mem_of_getElem? (h.getElem?_chain page))
  show Bookmark.mk t.chain (b.refreshed t).current = b
  rw [hcurrent, ← h.chain]

/-- Whoever refreshes several times with one tree could have refreshed once. -/
theorem foldl_refreshed {α : Type} (b : Bookmark) (ne : t.chain ≠ []) {changes : List α}
    (hc : changes ≠ []) : changes.foldl (fun b _ => b.refreshed t) b = b.refreshed t := by
  have again : ∀ rest : List α,
      rest.foldl (fun b _ => b.refreshed t) (b.refreshed t) = b.refreshed t := by
    intro rest
    induction rest with
    | nil => rfl
    | cons _ rest ih => rw [List.foldl_cons, (inStep_refreshed b ne).refreshed_eq, ih]
  cases changes with
  | nil => exact absurd rfl hc
  | cons change rest => exact again rest

end Bookmark

namespace Session

/-- A session is the listener of its script, and its bookmark is in step with the tree. -/
structure InStep (s : Session) : Prop where
  served : s.script.served ≠ none
  bookmark : s.bookmark.InStep s.script.tree

variable {s : Session}

theorem InStep.chain_ne_nil (h : s.InStep) {u : Tree}
    (shape : u.pages.shape = s.script.tree.pages.shape) : u.chain ≠ [] := by
  rw [Tree.chain_ne_nil_iff, Tree.isEmpty_eq_of_shape_eq shape, ← Tree.chain_ne_nil_iff,
    ← h.bookmark.chain]
  exact List.length_pos_iff.1 (Nat.zero_lt_of_lt h.bookmark.current)

theorem bookmark_following (s : Session) {script : Script} {changes : List Tree.Change}
    (served : script.served ≠ none) (ne : script.tree.chain ≠ []) (hc : changes ≠ []) :
    (s.following script changes).bookmark = s.bookmark.refreshed script.tree := by
  obtain ⟨n, hn⟩ := Option.ne_none_iff_exists'.1 served
  rw [following, Script.deliveries, hn]
  dsimp only
  rw [List.foldl_map]
  exact Bookmark.foldl_refreshed s.bookmark ne hc

/-- An interaction leaves the bookmark refreshed, and what else the page depends on as it was. -/
theorem InStep.refreshed_interact (h : s.InStep) (a : Address) (i : Interaction) (d : Disk) :
    (s.interact a i d).1.1.bookmark =
        s.bookmark.refreshed (s.interact a i d).1.1.script.tree ∧
      (s.interact a i d).1.1.script.tree.pages.shape = s.script.tree.pages.shape ∧
      (s.interact a i d).1.1.script.served = s.script.served := by
  rw [interact]
  rcases s.script.interact_cases a i with ⟨u, changes, hu, hs⟩ | ⟨f, -, hs⟩
  · rw [hs]
    have shape := Tree.shape_of_respond? hu
    refine ⟨?_, shape, rfl⟩
    by_cases hc : changes = []
    · -- nothing is delivered, and nothing has to be: the chain is the one the bookmark has
      subst hc
      have hchain : u.chain = s.script.tree.chain := Tree.chain_eq_of_respond?_nil hu
      have hstep : s.bookmark.InStep u := ⟨h.bookmark.chain.trans hchain.symm, h.bookmark.current⟩
      show ((s.following { s.script with tree := u } []).bookmark) = s.bookmark.refreshed u
      rw [hstep.refreshed_eq, following, Script.deliveries_nil]
      rfl
    · exact s.bookmark_following h.served (h.chain_ne_nil shape) hc
  · rw [hs]
    exact ⟨h.bookmark.refreshed_eq.symm, rfl, rfl⟩

theorem InStep.interact (h : s.InStep) (a : Address) (i : Interaction) (d : Disk) :
    (s.interact a i d).1.1.InStep := by
  obtain ⟨hbookmark, shape, served⟩ := h.refreshed_interact a i d
  refine ⟨served ▸ h.served, ?_⟩
  rw [hbookmark]
  exact Bookmark.inStep_refreshed _ (h.chain_ne_nil shape)

theorem goTo_cases (s : Session) (place : Nat) :
    place < s.bookmark.chain.length ∧
        s.goTo place = .ok { s with bookmark := { s.bookmark with current := place } } ∨
      s.bookmark.chain.length ≤ place ∧ ∃ f, s.goTo place = .error f := by
  rw [goTo]
  by_cases h : place < s.bookmark.chain.length
  · exact Or.inl ⟨h, if_pos h⟩
  · exact Or.inr ⟨Nat.le_of_not_lt h, _, if_neg h⟩

/-! ### Sessions as they are opened -/

/-- Sessions as they are opened, before anything is done in them. -/
inductive Opened : Session → Prop where
  | started {c : Config} {source folder : Path} {s : Session} (h : (start c source folder).Yields s) :
      Opened s
  | resumed {c : Config} {folder : Path} {s : Session} (h : (resume c folder).Yields s) : Opened s

/-- A session at any place is in step once its bookmark has been refreshed. -/
theorem inStep_movedTo (s : Session) (served : s.script.served ≠ none)
    (ne : s.script.tree.isEmpty = false) (place : Nat) : (s.refreshed.movedTo place).InStep :=
  ⟨served, rfl, Bookmark.current_moved_lt (Tree.chain_ne_nil_iff.2 ne) place⟩

theorem inStep_atStart (s : Session) (served : s.script.served ≠ none)
    (ne : s.script.tree.isEmpty = false) : s.atStart.InStep := by
  have hstart : s.script.start.1.served ≠ none ∧ s.script.start.1.tree.isEmpty = false := by
    rcases s.script.start_cases with h | ⟨c, -, -, h⟩ <;> rw [h]
    · exact ⟨served, ne⟩
    · exact ⟨served, (Tree.isEmpty_eq_of_shape_eq (Tree.shape_set _ _ _)).trans ne⟩
  exact inStep_movedTo _ hstart.1 hstart.2 0

theorem isEmpty_of_loadChecked {p : Path} {script : Script}
    (h : (Source.loadChecked p).Yields script) : script.tree.isEmpty = false := by
  rw [Source.loadChecked] at h
  obtain ⟨loaded, -, h⟩ := h.of_bind
  dsimp only [Script.check] at h
  obtain ⟨_, hcheck, h⟩ := h.of_bind
  have hok : loaded.tree.check = .ok _ := ofScript_eq_ok_iff.1 hcheck.of_within.of_ofAnswer
  cases h.of_pure
  rw [hok, Script.remembering_ok]
  rw [Tree.check] at hok
  split at hok
  · cases hok
  · next h => exact Bool.eq_false_iff.2 h

theorem isEmpty_of_load {script : Script} {a : Archive} (h : (script.load a).2 = .ok ()) :
    (script.load a).1.tree.isEmpty = false := by
  rcases script.load_cases a with ⟨tree, hr, hl⟩ | ⟨f, -, hl⟩
  · rw [hl]
    apply (Tree.isEmpty_eq_of_shape_eq (Tree.shape_of_restored? hr)).trans
    rw [Tree.restored?] at hr
    split at hr
    · cases hr
    · next h => exact Bool.eq_false_iff.2 h
  · rw [hl] at h
    cases h

/-- Only a script with a page is opened, and the session is put in step before it is handed out. -/
theorem Opened.inStep (h : s.Opened) : s.InStep := by
  cases h with
  | started h =>
      rw [start] at h
      obtain ⟨_, -, h⟩ := h.of_bind
      obtain ⟨_, -, h⟩ := h.of_bind
      have h := h.of_cleaning
      rw [openNew] at h
      obtain ⟨name, -, h⟩ := h.of_bind
      obtain ⟨script, hload, h⟩ := h.of_bind
      have ne := isEmpty_of_loadChecked hload
      cases h.of_pure
      exact inStep_atStart _ (Option.some_ne_none _) ne
  | resumed h =>
      rw [resume] at h
      obtain ⟨a, -, h⟩ := h.of_bind
      obtain ⟨name, -, h⟩ := h.of_bind
      obtain ⟨script, -, h⟩ := h.of_bind
      obtain ⟨_, hanswer, h⟩ := h.of_bind
      have hload := ofScript_eq_ok_iff.1 hanswer.of_within.of_ofAnswer
      cases h.of_pure
      exact inStep_movedTo _ (Option.some_ne_none _) (isEmpty_of_load hload) _

theorem run_loadChecked {source : Path} {text : String} {fresh : Script} {d : Disk}
    (read : d.readText source = .ok text) (loaded : Source.script text = .ok fresh)
    (well : fresh.tree.check = .ok ()) : (Source.loadChecked source).run d = (.ok fresh, d) := by
  have hload : (Source.load source).run d = (.ok fresh, d) := by
    rw [Source.load]
    exact Job.run_bind_eq_ok_iff.2 ⟨text, d, Job.run_query_eq_ok_iff.2 ⟨read, rfl⟩,
      Job.run_within_eq_ok_iff.2 (Job.run_ofAnswer_eq_ok_iff.2 ⟨loaded, rfl⟩)⟩
  have hcheck : fresh.check = (fresh, .ok ()) := by
    rw [Script.check, well, Script.remembering_ok]
  rw [Source.loadChecked]
  refine Job.run_bind_eq_ok_iff.2 ⟨fresh, d, hload, ?_⟩
  rw [hcheck]
  rfl

/-- A session is started from the file of its script once its folder is made. -/
theorem run_start_of_file {c : Config} {source folder : Path} {name text : String} {fresh : Script}
    {d : Disk} {p : List String} (named : source.fileName? = some name)
    (made : (d.makeAll folder).2 = .ok ()) (leads : (d.makeAll folder).1.position? source = some p)
    (file : d.find? p = some (.file text.toUTF8)) (loaded : Source.script text = .ok fresh)
    (well : fresh.tree.check = .ok ()) :
    (start c source folder).run d =
      (.ok (attached c fresh folder source name).atStart, (d.makeAll folder).1) := by
  have hread := Disk.readText_of_find? leads
    ((Disk.makes_makeAll d folder).find?_eq_file_iff.2 file)
  have hopen : (openNew c source folder).run (d.makeAll folder).1 =
      (.ok (attached c fresh folder source name).atStart, (d.makeAll folder).1) := by
    rw [openNew, named, Job.require_some_bind]
    exact Job.run_bind_eq_ok_iff.2 ⟨fresh, _, run_loadChecked hread loaded well, rfl⟩
  rw [start]
  refine Job.run_bind_eq_ok_iff.2 ⟨_, d, rfl, Job.run_bind_eq_ok_iff.2 ⟨(), _,
    Job.run_changeInPart_eq_ok_iff.2 (Prod.ext rfl made), ?_⟩⟩
  rw [Job.run_cleaning, hopen]

/-! ### Sessions after calls -/

/-- What is asked of a session. -/
inductive Call where
  | interact (a : Address) (i : Interaction)
  | goTo (place : Nat)

/-- A session and the disk after a call. A session that would go to a place it has not stays. -/
def perform (x : Session × Disk) : Call → Session × Disk
  | .interact a i => ((x.1.interact a i x.2).1.1, (x.1.interact a i x.2).2)
  | .goTo place => ((x.1.goTo place).toOption.getD x.1, x.2)

/-- A session and the disk after calls, one after the other. -/
def after (x : Session × Disk) (calls : List Call) : Session × Disk :=
  calls.foldl perform x

theorem InStep.perform {x : Session × Disk} (h : x.1.InStep) (call : Call) :
    (perform x call).1.InStep := by
  cases call with
  | interact a i => exact h.interact a i x.2
  | goTo place =>
      rw [Session.perform]
      rcases x.1.goTo_cases place with ⟨hlt, hgo⟩ | ⟨-, f, hgo⟩ <;> rw [hgo]
      · exact ⟨h.served, h.bookmark.chain, hlt⟩
      · exact h

theorem InStep.after {x : Session × Disk} (h : x.1.InStep) (calls : List Call) :
    (after x calls).1.InStep := by
  induction calls generalizing x with
  | nil => exact h
  | cons call calls ih => exact ih (h.perform call)

/-- In every session, after any calls, the chain is the chain of the tree, there is a page, and the
current place is the place of one. An interaction keeps the selected page at its place if it is in the
chain afterwards, and selects the last page if it is not. Exactly the places of the chain can be gone
to; a session that cannot go is as it was. -/
theorem page_in_step {s : Session} (opened : s.Opened) (d : Disk) (calls : List Call) :
    let x := after (s, d) calls
    x.1.bookmark.chain = x.1.script.tree.chain ∧ x.1.bookmark.chain ≠ [] ∧
    x.1.bookmark.current < x.1.bookmark.chain.length ∧
    (∀ a i, ∃ node, x.1.bookmark.page? = some node ∧
      let y := perform x (.interact a i)
      (node ∈ y.1.bookmark.chain →
        y.1.bookmark.page? = some node ∧ y.1.bookmark.current = x.1.bookmark.current) ∧
      (node ∉ y.1.bookmark.chain →
        y.1.bookmark.current = y.1.bookmark.chain.length - 1)) ∧
    ∀ place, ((∃ f, x.1.goTo place = .error f) ↔ x.1.bookmark.chain.length ≤ place) ∧
      (x.1.bookmark.chain.length ≤ place → perform x (.goTo place) = x) ∧
      (place < x.1.bookmark.chain.length →
        (perform x (.goTo place)).1.bookmark = { x.1.bookmark with current := place }) := by
  intro x
  have h : x.1.InStep := InStep.after (x := (s, d)) opened.inStep calls
  refine ⟨h.bookmark.chain, List.length_pos_iff.1 (Nat.zero_lt_of_lt h.bookmark.current),
    h.bookmark.current, ?_, ?_⟩
  · intro a i
    obtain ⟨node, page⟩ := h.bookmark.exists_page?
    refine ⟨node, page, ?_⟩
    intro y
    obtain ⟨hbookmark, shape, -⟩ := h.refreshed_interact a i x.2
    have hy : y.1.bookmark = x.1.bookmark.refreshed y.1.script.tree := hbookmark
    rw [hy]
    exact ⟨h.bookmark.refreshed_of_mem shape page, Bookmark.current_refreshed_of_not_mem page⟩
  · intro place
    rw [perform]
    rcases x.1.goTo_cases place with ⟨hlt, hgo⟩ | ⟨hle, f, hgo⟩ <;> rw [hgo]
    · have hnot : ¬ x.1.bookmark.chain.length ≤ place := Nat.not_le_of_lt hlt
      exact ⟨⟨nofun, fun hle => absurd hle hnot⟩, fun hle => absurd hle hnot, fun _ => rfl⟩
    · exact ⟨⟨fun _ => hle, fun _ => ⟨f, rfl⟩⟩, fun _ => rfl,
        fun hlt => absurd hle (Nat.not_le_of_lt hlt)⟩

/-- A disk with a script whose second page comes when a box on the first one is ticked. -/
def twoPages : Disk :=
  let page (kind name : String) := "\x7b\"component\":\x7b\"type\":\"" ++ kind ++
    "\",\"name\":\"" ++ name ++ "\",\"text\":\"?\"\x7d\x7d"
  let text := "\x7b\"title\":\"Fall\",\"pages\":[" ++ page "checkbox_question" "held" ++ "," ++
    page "text_question" "time" ++ "]\x7d"
  ⟨.file "fall.json" text.toUTF8 .nil, []⟩

/-- The session of the script of `twoPages`. -/
def fall : Session :=
  let first := Tree.new (.ofCheckbox "held" "?")
  let both := first.addNext 0 (.ofTextQuestion "time" "?" false)
  let tree := (both.toOption.map Prod.fst).getD .empty
  (attached .standard (.new "Fall" tree) ⟨"run"⟩ ⟨"fall.json"⟩ "fall.json").atStart

/-- The disk after the script of `twoPages` was started. -/
def fallStarted : Disk := (twoPages.makeAll ⟨"run"⟩).1

theorem start_fall :
    (start .standard ⟨"fall.json"⟩ ⟨"run"⟩).run twoPages = (.ok fall, fallStarted) := by
  refine run_start_of_file (p := ["fall.json"]) (by decide) (by rfl) (by rfl) (by rfl) ?_ (by rfl)
  apply Source.script_of_ofList
  · repeat' apply Source.append_eq_ofList
    all_goals exact rfl
  · decide +kernel

theorem opened_fall : fall.Opened := .started ⟨twoPages, fallStarted, start_fall⟩

/-- The box on the first page is ticked and the second page is selected. -/
def turnedPage : List Call := [.interact ⟨0, []⟩ (.check true), .goTo 1]

theorem page_in_step_fall :
    (after (fall, twoPages) turnedPage).1.bookmark = ⟨[0, 1], 1⟩ ∧
    (perform (after (fall, twoPages) turnedPage)
      (.interact ⟨0, []⟩ (.check false))).1.bookmark.current = 0 := by
  obtain ⟨-, -, -, hinteract, -⟩ := page_in_step opened_fall twoPages turnedPage
  have hbefore : (after (fall, twoPages) turnedPage).1.bookmark = ⟨[0, 1], 1⟩ := by rfl
  have hchain : (perform (after (fall, twoPages) turnedPage)
      (.interact ⟨0, []⟩ (.check false))).1.bookmark.chain = [0] := by rfl
  refine ⟨hbefore, ?_⟩
  obtain ⟨node, page, -, hlast⟩ := hinteract ⟨0, []⟩ (.check false)
  rw [hbefore] at page
  cases page
  rw [hlast (by rw [hchain]; decide), hchain]
  rfl

end Session

end GuidedLab
