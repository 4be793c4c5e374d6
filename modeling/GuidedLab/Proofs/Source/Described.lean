import GuidedLab.Proofs.Source.Loaded

/-!
# What a draft describes

`Describes` says which components a draft stands for, and does not mention how they are built: the
component has the name, the texts and the items that are written, in their order, and is in its first
state. The questions among the items of a sheet are numbered from one on. What is built is described
(`describes_of_build`), and a draft can be built exactly when all its parts fit, which is asked of each
part by itself (`exists_build_iff`).
-/

namespace GuidedLab

/-- An axis is meant by a name in any mixture of ASCII cases. -/
def Axis.IsNamed (axis : Axis) (s : String) : Prop :=
  lowered axis.name = lowered s

theorem Axis.lowered_name (axis : Axis) : lowered axis.name = axis.name.toList := by
  cases axis <;> decide +kernel

theorem Axis.name_injective {axis axis' : Axis} (h : axis.name.toList = axis'.name.toList) :
    axis = axis' := by
  revert h
  cases axis <;> cases axis' <;> decide +kernel

theorem Axis.ofName?_eq_some_iff {s : String} {axis : Axis} :
    ofName? s = some axis ↔ axis.IsNamed s := by
  have found : ∀ {axis}, ofName? s = some axis → axis.name.toList = lowered s := by
    intro axis h
    rw [ofName?] at h
    simpa using List.find?_some h
  rw [IsNamed, lowered_name]
  constructor
  · exact found
  · intro h
    have hmem : axis ∈ all := by cases axis <;> decide
    cases hf : ofName? s with
    | none => exact absurd h (by simpa using List.find?_eq_none.1 hf axis hmem)
    | some axis' => rw [name_injective ((found hf).trans h.symm)]

/-- Whether an element is a question, which a sheet numbers. -/
def Element.isQuestion : Element → Bool
  | .question .. | .textQuestion _ => true
  | _ => false

namespace Component

/-- Whether a component is a question, which a sheet numbers. -/
def isQuestion : Component → Bool
  | .leaf _ _ element => element.isQuestion
  | .sheet .. => false

/-- The component with a number, if it is a question. -/
def withNumber (n : UInt32) : Component → Component
  | .leaf name state element => .leaf name state ((element.withNumber? n).getD element)
  | .sheet name state orientation items => .sheet name state orientation items

/-- An item is numbered by the questions that come before it. -/
theorem getElem?_numbered (n : UInt32) (items : List Component) (i : Nat) :
    (numbered n items)[i]? =
      items[i]?.map (withNumber (n + .ofNat (1 + (items.take i).countP isQuestion))) := by
  induction items generalizing n i with
  | nil => rfl
  | cons c rest ih =>
      cases c with
      | leaf name state element =>
          rw [numbered]
          split
          · next element' hk =>
              have hq : element.isQuestion = true := by cases element <;> cases hk <;> rfl
              cases i with
              | zero => simp [withNumber, hk]
              | succ i =>
                  rw [List.getElem?_cons_succ, List.getElem?_cons_succ, ih, List.take_succ_cons,
                    List.countP_cons_of_pos (by exact hq), Nat.add_comm _ 1, UInt32.ofNat_add 1 (1 + _),
                    ← UInt32.add_assoc]
                  rfl
          · next hk =>
              have hq : element.isQuestion = false := by cases element <;> first | rfl | cases hk
              cases i with
              | zero => cases element <;> first | rfl | cases hk
              | succ i =>
                  rw [List.getElem?_cons_succ, List.getElem?_cons_succ, ih, List.take_succ_cons,
                    List.countP_cons_of_neg (by rw [isQuestion, hq]; exact Bool.false_ne_true)]
      | sheet name state orientation items =>
          rw [numbered_sheet_cons]
          cases i with
          | zero => rfl
          | succ i =>
              rw [List.getElem?_cons_succ, List.getElem?_cons_succ, ih, List.take_succ_cons,
                List.countP_cons_of_neg (by exact Bool.false_ne_true)]

end Component

namespace Source

/-- Whether an element is a question, which a sheet numbers. -/
def ElementDraft.isQuestion : ElementDraft → Bool
  | .question _ | .textQuestion .. => true
  | _ => false

/-- The state of a new element: what is to be ticked, answered or recorded is ongoing, unless it is
optional, and everything else is done. -/
def ElementDraft.firstState : ElementDraft → State
  | .checkbox _ | .experiment .. => .ongoing
  | .textQuestion _ optional => if optional then .plainlyDone else .ongoing
  | _ => .plainlyDone

/-- The elements that are written, with a number if it is for a question. -/
inductive ElementDraft.Describes (number : Option UInt32) : ElementDraft → Element → Prop where
  | text (style : TextStyle) (content : String) :
      Describes number (.text style content) (.text style content)
  | question (content : String) : Describes number (.question content) (.question content number)
  | checkbox (content : String) : Describes number (.checkbox content) (.checkbox content)
  | textQuestion (content : String) (optional : Bool) :
      Describes number (.textQuestion content optional)
        (.textQuestion ⟨content, "", optional, number⟩)
  | experiment (sensor : Sensor) (description : String) :
      Describes number (.experiment sensor description) (.experiment ⟨sensor, description, none⟩)
  | graph {g : GraphDraft} {xAxis yAxis : Axis} (x : xAxis.IsNamed g.xAxis)
      (y : yAxis.IsNamed g.yAxis) :
      Describes number (.graph g)
        (.graph ⟨g.title.getD (Graph.defaultTitle xAxis yAxis), xAxis, yAxis, g.experiment⟩)
  | exportPart : Describes number .export .export

namespace ComponentDraft

/-- A statement holds of every draft if it holds of every element, and of a sheet whenever it holds of
all its items. -/
@[elab_as_elim]
theorem induction {motive : ComponentDraft → Prop}
    (leaf : ∀ name element, motive (.leaf name element))
    (sheet : ∀ name orientation items, (∀ d ∈ items, motive d) →
      motive (.sheet name orientation items)) (d : ComponentDraft) : motive d :=
  ComponentDraft.rec (motive_1 := motive) (motive_2 := fun ds => ∀ d ∈ ds, motive d)
    leaf sheet (fun _ h => nomatch h)
    (fun _ _ hd hds _ h => (List.mem_cons.1 h).elim (fun e => e ▸ hd) (hds _)) d

/-- Whether a component is a question, which a sheet numbers. -/
def isQuestion : ComponentDraft → Bool
  | .leaf _ element => element.isQuestion
  | .sheet .. => false

/-- The number that a question has at a position among the items of a sheet, in 32 bits. -/
def numberAt (items : List ComponentDraft) (i : Nat) : UInt32 :=
  .ofNat (1 + (items.take i).countP isQuestion)

/-- The components that are written, with a number if it is for a question. -/
inductive Describes : Option UInt32 → ComponentDraft → Component → Prop where
  | leaf {number : Option UInt32} {element : ElementDraft} {e : Element} (name : String)
      (h : element.Describes number e) :
      Describes number (.leaf name element) (.leaf name element.firstState e)
  | sheet {items : List ComponentDraft} {cs : List Component} (number : Option UInt32) (name : String)
      (orientation : Orientation) (length : cs.length = items.length)
      (each : ∀ (i : Nat) (d : ComponentDraft) (c : Component), items[i]? = some d →
        cs[i]? = some c → Describes (some (numberAt items i)) d c) :
      Describes number (.sheet name orientation items)
        (.sheet name (State.ofAllDone (Component.allDone cs)) orientation cs)

mutual

/-- A component and, below a sheet, the parts of its items. -/
def parts : ComponentDraft → List ComponentDraft
  | .leaf name element => [.leaf name element]
  | .sheet name orientation items => .sheet name orientation items :: partsOfItems items

/-- The parts of items. -/
def partsOfItems : List ComponentDraft → List ComponentDraft
  | [] => []
  | d :: rest => parts d ++ partsOfItems rest

end

/-- What is asked of a part, given the names of all experiments: a graph has known axes and a known
experiment if it has one, and the items of a sheet have different names. -/
def Fits (known : List String) : ComponentDraft → Prop
  | .leaf _ (.graph g) =>
    (∃ axis : Axis, axis.IsNamed g.xAxis) ∧ (∃ axis : Axis, axis.IsNamed g.yAxis) ∧
      ∀ e, g.experiment = some e → e ∈ known
  | .leaf .. => True
  | .sheet _ _ items => (items.map name).Nodup

theorem Describes.name_eq {number : Option UInt32} {d : ComponentDraft} {c : Component}
    (h : Describes number d c) : c.name = d.name := by
  cases h <;> rfl

theorem Describes.isQuestion_eq {number : Option UInt32} {d : ComponentDraft} {c : Component}
    (h : Describes number d c) : c.isQuestion = d.isQuestion := by
  cases h with
  | leaf name h => cases h <;> rfl
  | sheet => rfl

/-- What is described without a number is described with one once it has it. -/
theorem Describes.withNumber {d : ComponentDraft} {c : Component} (h : Describes none d c)
    (n : UInt32) : Describes (some n) d (c.withNumber n) := by
  cases h with
  | leaf name h =>
      cases h with
      | text style content => exact .leaf name (.text style content)
      | question content => exact .leaf name (.question content)
      | checkbox content => exact .leaf name (.checkbox content)
      | textQuestion content optional => exact .leaf name (.textQuestion content optional)
      | experiment sensor description => exact .leaf name (.experiment sensor description)
      | graph x y => exact .leaf name (.graph x y)
      | exportPart => exact .leaf name .exportPart
  | sheet _ name orientation length each => exact .sheet _ name orientation length each

/-- The questions among items are those that are described, so they are counted alike. -/
theorem countP_isQuestion_eq {items : List ComponentDraft} {cs : List Component}
    (length : cs.length = items.length)
    (each : ∀ (i : Nat) (d : ComponentDraft) (c : Component), items[i]? = some d →
      cs[i]? = some c → Describes none d c) (i : Nat) :
    (cs.take i).countP Component.isQuestion = (items.take i).countP isQuestion := by
  induction items generalizing cs i with
  | nil => rw [List.eq_nil_of_length_eq_zero length, List.take_nil, List.take_nil]; rfl
  | cons d rest ih =>
      cases cs with
      | nil => cases length
      | cons c cs =>
          cases i with
          | zero => rfl
          | succ i =>
              have hrest := ih (Nat.succ.inj length) (fun j => each (j + 1)) i
              rw [List.take_succ_cons, List.take_succ_cons, List.countP_cons, List.countP_cons, hrest,
                (each 0 d c rfl rfl).isQuestion_eq]

theorem partsOfItems_eq_flatMap (items : List ComponentDraft) :
    partsOfItems items = items.flatMap parts := by
  induction items with
  | nil => rfl
  | cons d rest ih => rw [partsOfItems, List.flatMap_cons, ih]

theorem experimentsOfItems_eq_flatMap (items : List ComponentDraft) :
    experimentsOfItems items = items.flatMap experiments := by
  induction items with
  | nil => rfl
  | cons d rest ih => rw [experimentsOfItems, List.flatMap_cons, ih]

/-- The names of experiments are those of the parts that are experiments. -/
theorem mem_experiments_iff {d : ComponentDraft} {s : String} :
    s ∈ d.experiments ↔
      ∃ sensor description, .leaf s (.experiment sensor description) ∈ d.parts := by
  induction d using ComponentDraft.induction with
  | leaf name element =>
      cases element with
      | experiment sensor description => simp [experiments, parts]
      | _ => simp [experiments, parts]
  | sheet name orientation items ih =>
      rw [experiments, experimentsOfItems_eq_flatMap, parts, partsOfItems_eq_flatMap,
        List.mem_flatMap]
      constructor
      · rintro ⟨d, hd, hs⟩
        obtain ⟨sensor, description, hp⟩ := (ih d hd).1 hs
        exact ⟨sensor, description, List.mem_cons_of_mem _ (List.mem_flatMap.2 ⟨d, hd, hp⟩)⟩
      · rintro ⟨sensor, description, hp⟩
        rcases List.mem_cons.1 hp with h | hp
        · cases h
        · obtain ⟨d, hd, hp⟩ := List.mem_flatMap.1 hp
          exact ⟨d, hd, (ih d hd).2 ⟨sensor, description, hp⟩⟩

end ComponentDraft

/-- No name comes twice, and none is among those seen. -/
theorem repeated?_eq_none_iff {seen names : List String} :
    repeated? seen names = none ↔ names.Nodup ∧ ∀ s ∈ names, s ∉ seen := by
  induction names generalizing seen with
  | nil => simp [repeated?]
  | cons s rest ih =>
      rw [repeated?, List.nodup_cons]
      by_cases hs : s ∈ seen
      · simp [hs]
      · rw [if_neg (by simpa using hs), ih]
        simp only [List.mem_cons, not_or, forall_eq_or_imp]
        constructor
        · rintro ⟨hd, h⟩
          exact ⟨⟨fun hm => (h s hm).1 rfl, hd⟩, hs, fun x hx => (h x hx).2⟩
        · rintro ⟨⟨hm, hd⟩, -, h⟩
          refine ⟨hd, ?_⟩
          intro x hx
          refine ⟨?_, h x hx⟩
          rintro rfl
          exact hm hx

/-! ### Building -/

variable {known : List String}

theorem axis?_eq_ok_iff {graph s : String} {axis : Axis} :
    axis? graph s = .ok axis ↔ axis.IsNamed s := by
  rw [axis?, ← Axis.ofName?_eq_some_iff]
  cases Axis.ofName? s <;> simp

theorem GraphDraft.build_eq_ok_iff {name : String} {g : GraphDraft} {graph : Graph} :
    g.build known name = .ok graph ↔
      ∃ xAxis yAxis : Axis, xAxis.IsNamed g.xAxis ∧ yAxis.IsNamed g.yAxis ∧
        (∀ e, g.experiment = some e → e ∈ known) ∧
        graph = ⟨g.title.getD (Graph.defaultTitle xAxis yAxis), xAxis, yAxis, g.experiment⟩ := by
  have hfilter : (g.experiment.filter fun e => !known.contains e) = none ↔
      ∀ e, g.experiment = some e → e ∈ known := by
    cases g.experiment <;> simp [Option.filter]
  rw [build, Success.bind_eq_ok_iff]
  constructor
  · rintro ⟨xAxis, hx, h⟩
    obtain ⟨yAxis, hy, h⟩ := Success.bind_eq_ok_iff.1 h
    split at h
    · cases h
    · next hnone =>
        cases h
        exact ⟨xAxis, yAxis, axis?_eq_ok_iff.1 hx, axis?_eq_ok_iff.1 hy, hfilter.1 hnone, rfl⟩
  · rintro ⟨xAxis, yAxis, hx, hy, he, rfl⟩
    refine ⟨xAxis, axis?_eq_ok_iff.2 hx, Success.bind_eq_ok_iff.2 ⟨yAxis, axis?_eq_ok_iff.2 hy, ?_⟩⟩
    rw [hfilter.2 he]

theorem ElementDraft.describes_of_build {name : String} {element : ElementDraft} {c : Component}
    (h : element.build known name = .ok c) :
    ComponentDraft.Describes none (.leaf name element) c := by
  cases element with
  | graph g =>
      rw [build] at h
      obtain ⟨graph, hg, rfl⟩ := Success.map_eq_ok_iff.1 h
      obtain ⟨xAxis, yAxis, hx, hy, -, rfl⟩ := GraphDraft.build_eq_ok_iff.1 hg
      exact .leaf name (.graph hx hy)
  | text style content =>
      cases h
      exact .leaf name (.text style content)
  | question content =>
      cases h
      exact .leaf name (.question content)
  | checkbox content =>
      cases h
      exact .leaf name (.checkbox content)
  | textQuestion content optional =>
      cases h
      cases optional <;> exact .leaf name (.textQuestion content _)
  | experiment sensor description =>
      cases h
      exact .leaf name (.experiment sensor description)
  | «export» =>
      cases h
      exact .leaf name .exportPart

theorem ElementDraft.exists_build_iff {name : String} {element : ElementDraft} :
    (∃ c, element.build known name = .ok c) ↔ (ComponentDraft.leaf name element).Fits known := by
  cases element with
  | graph g =>
      constructor
      · rintro ⟨c, h⟩
        rw [build] at h
        obtain ⟨graph, hg, rfl⟩ := Success.map_eq_ok_iff.1 h
        obtain ⟨xAxis, yAxis, hx, hy, he, -⟩ := GraphDraft.build_eq_ok_iff.1 hg
        exact ⟨⟨xAxis, hx⟩, ⟨yAxis, hy⟩, he⟩
      · rintro ⟨⟨xAxis, hx⟩, ⟨yAxis, hy⟩, he⟩
        have hg : g.build known name = .ok _ :=
          GraphDraft.build_eq_ok_iff.2 ⟨xAxis, yAxis, hx, hy, he, rfl⟩
        exact ⟨_, Success.map_eq_ok_iff.2 ⟨_, hg, rfl⟩⟩
  | _ => exact ⟨fun _ => trivial, fun _ => ⟨_, rfl⟩⟩

theorem exists_buildItems_iff {items : List ComponentDraft} :
    (∃ cs, buildItems known items = .ok cs) ↔ ∀ d ∈ items, ∃ c, d.build known = .ok c := by
  induction items with
  | nil => exact ⟨fun _ => nofun, fun _ => ⟨[], rfl⟩⟩
  | cons d rest ih =>
      rw [List.forall_mem_cons, ← ih]
      constructor
      · rintro ⟨cs, h⟩
        rw [buildItems] at h
        obtain ⟨c, hc, h⟩ := Success.bind_eq_ok_iff.1 h
        obtain ⟨others, ho, -⟩ := Success.bind_eq_ok_iff.1 h
        exact ⟨⟨c, hc⟩, others, ho⟩
      · rintro ⟨⟨c, hc⟩, others, ho⟩
        refine ⟨c :: others, ?_⟩
        rw [buildItems, Success.bind_eq_ok_iff]
        exact ⟨c, hc, Success.bind_eq_ok_iff.2 ⟨others, ho, rfl⟩⟩

/-- Items are built one by one. -/
theorem getElem?_of_buildItems {items : List ComponentDraft} {cs : List Component}
    (h : buildItems known items = .ok cs) :
    cs.length = items.length ∧ ∀ (i : Nat) (d : ComponentDraft) (c : Component),
      items[i]? = some d → cs[i]? = some c → d.build known = .ok c := by
  induction items generalizing cs with
  | nil =>
      cases h
      exact ⟨rfl, nofun⟩
  | cons d rest ih =>
      rw [buildItems] at h
      obtain ⟨c, hc, h⟩ := Success.bind_eq_ok_iff.1 h
      obtain ⟨others, ho, h⟩ := Success.bind_eq_ok_iff.1 h
      cases h
      obtain ⟨hlength, heach⟩ := ih ho
      refine ⟨congrArg (· + 1) hlength, ?_⟩
      intro i x y hx hy
      cases i with
      | zero =>
          cases hx
          cases hy
          exact hc
      | succ i => exact heach i x y hx hy

namespace ComponentDraft

/-- A component is built as it is described. -/
theorem describes_of_build {d : ComponentDraft} {c : Component} (h : d.build known = .ok c) :
    Describes none d c := by
  induction d using ComponentDraft.induction generalizing c with
  | leaf name element => exact ElementDraft.describes_of_build h
  | sheet name orientation items ih =>
      rw [build] at h
      split at h
      · cases h
      · obtain ⟨cs, hcs, rfl⟩ := Success.map_eq_ok_iff.1 h
        obtain ⟨hlength, heach⟩ := getElem?_of_buildItems hcs
        have hdescribed : ∀ (i : Nat) (d : ComponentDraft) (c : Component), items[i]? = some d →
            cs[i]? = some c → Describes none d c :=
          fun i d c hd hc => ih d (List.mem_of_getElem? hd) (heach i d c hd hc)
        rw [Component.ofItems, ← Component.allDone_numbered 0 cs]
        apply Describes.sheet
        · rw [Component.length_numbered, hlength]
        · intro i d c hd hc
          rw [Component.getElem?_numbered, UInt32.zero_add, countP_isQuestion_eq hlength hdescribed] at hc
          obtain ⟨c', hc', rfl⟩ := Option.map_eq_some_iff.1 hc
          exact (hdescribed i d c' hd hc').withNumber _

/-- A component can be built exactly when all its parts fit. -/
theorem exists_build_iff {d : ComponentDraft} :
    (∃ c, d.build known = .ok c) ↔ ∀ part ∈ d.parts, part.Fits known := by
  induction d using ComponentDraft.induction with
  | leaf name element =>
      rw [parts, List.forall_mem_singleton, ← ElementDraft.exists_build_iff]
      rfl
  | sheet name orientation items ih =>
      have hnames : repeated? [] (items.map ComponentDraft.name) = none ↔
          (items.map ComponentDraft.name).Nodup := by
        simp [repeated?_eq_none_iff]
      have hitems : (∃ cs, buildItems known items = .ok cs) ↔
          ∀ part ∈ partsOfItems items, part.Fits known := by
        rw [exists_buildItems_iff, partsOfItems_eq_flatMap]
        constructor
        · intro h part hpart
          obtain ⟨d, hd, hpart⟩ := List.mem_flatMap.1 hpart
          exact (ih d hd).1 (h d hd) part hpart
        · intro h d hd
          exact (ih d hd).2 fun part hpart => h part (List.mem_flatMap.2 ⟨d, hd, hpart⟩)
      rw [parts, List.forall_mem_cons, Fits, ← hnames, ← hitems]
      constructor
      · rintro ⟨c, h⟩
        rw [build] at h
        split at h
        · cases h
        · next hnone =>
            obtain ⟨cs, hcs, -⟩ := Success.map_eq_ok_iff.1 h
            exact ⟨hnone, cs, hcs⟩
      · rintro ⟨hnone, cs, hcs⟩
        refine ⟨.ofItems name orientation cs, ?_⟩
        rw [build, hnone]
        exact Success.map_eq_ok_iff.2 ⟨cs, hcs, rfl⟩

end ComponentDraft

end Source

end GuidedLab
