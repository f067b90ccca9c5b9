import Howler.Classification.Cache

namespace Howler

open Python

namespace Engine

/-- `filter_case_items_by_classification`: items without a classification always stay. -/
def filterItems {α : Type} (rt : Runtime) (E : Engine) (classification : α → Option Str)
    (userC12n : Str) : List α → Except PyError (List α)
  | [] => .ok []
  | x :: xs => do
    let keep ← match classification x with
      | none => .ok true
      | some c => E.isAccessible rt userC12n (some c) false
    let xs ← filterItems rt E classification userC12n xs
    return if keep then x :: xs else xs

/-- In the invalid mode exactly the items without a classification stay. -/
theorem filterItems_invalid {α : Type} {rt : Runtime} {E : Engine} (h : E.invalidMode = true)
    (classification : α → Option Str) (u : Str) (xs : List α) :
    E.filterItems rt classification u xs =
      .ok (xs.filter fun x => (classification x).isNone) := by
  induction xs with
  | nil => rfl
  | cons x xs ih =>
    rw [filterItems, ih]
    cases hc : classification x with
    | none => simp [hc, bind, Except.bind, pure, Except.pure]
    | some c =>
      have hno : E.isAccessible rt u (some c) false = .ok false := by
        unfold isAccessible
        rw [if_pos h]
      simp [hc, hno, bind, Except.bind, pure, Except.pure]

end Engine

namespace Classification

/-- Classification is off and `UNRESTRICTED` does not exist yet. -/
structure Off (o : Classification) : Prop where
  enforce : o.engine.enforce = false
  unrestricted : o.engine.unrestricted = none

section Off

variable {rt : Runtime}

theorem keeps_off_modifyEngine {f : Engine → Engine}
    (h : ∀ E : Engine, (f E).enforce = E.enforce ∧ (f E).unrestricted = E.unrestricted) :
    Keeps Off (modifyEngine f) fun _ => True :=
  keeps_modify fun o ho => ⟨(h o.engine).1.trans ho.enforce, (h o.engine).2.trans ho.unrestricted⟩

theorem keeps_off_foldl {α : Type} {f : Engine → α → Engine}
    (h : ∀ E x, (f E x).enforce = E.enforce ∧ (f E x).unrestricted = E.unrestricted)
    (xs : List α) : Keeps Off (modifyEngine fun E => xs.foldl f E) fun _ => True := by
  apply keeps_off_modifyEngine
  induction xs with
  | nil => exact fun E => ⟨rfl, rfl⟩
  | cons x xs ih =>
    intro E
    have hx := h E x
    have hxs := ih (f E x)
    exact ⟨hxs.1.trans hx.1, hxs.2.trans hx.2⟩

theorem keeps_off_addLevels (xs : List LevelItem) : Keeps Off (addLevels xs) fun _ => True := by
  induction xs with
  | nil => exact keeps_pure trivial
  | cons x xs ih =>
    refine keeps_get.bind fun o ho => ?_
    refine Keeps.bind (Q := fun E => E.enforce = false ∧ E.unrestricted = none)
      (keeps_liftExcept fun E hE => ?_) fun E hE => ?_
    · unfold Engine.addLevel at hE
      split_ifs at hE
      obtain rfl := Except.ok.inj hE
      exact ⟨ho.enforce, ho.unrestricted⟩
    · exact (keeps_modify fun o _ => ⟨hE.1, hE.2⟩).bind fun _ _ => ih

/-- A method that is called on the object leaves the engine alone. -/
theorem keeps_off_call {α : Type} (m : Engine → Method α) :
    Keeps Off (call m) fun _ => True :=
  fun _ ho => ⟨⟨ho.enforce, ho.unrestricted⟩, fun _ _ => trivial⟩

theorem keeps_off_fillCaches : Keeps Off (fillCaches rt) fun _ => True := by
  refine keeps_get.bind fun o ho => ?_
  rw [if_neg (by simp [ho.enforce])]
  exact keeps_pure trivial

theorem keeps_off_needValid (c : Option Str) (key msg : Str) :
    Keeps Off (needValid rt c key msg) fun _ => True := by
  refine (keeps_need _ _).bind fun c _ => ?_
  refine (keeps_off_call _).bind fun valid _ => ?_
  split_ifs
  · exact keeps_pure trivial
  · exact keeps_throw _

/-- With classification off, normalizing looks up the attribute that is not there yet. -/
theorem keeps_off_normalize (c : Str) :
    Keeps Off (call fun E => E.normalizeClassification rt c {}) fun _ => False := by
  intro o ho
  have hun : o.engine.getUnrestricted = .error (.attributeError "UNRESTRICTED".toList) := by
    rw [Engine.getUnrestricted, ho.unrestricted]
  have hrun : (o.engine.normalizeClassification rt c {}).run o.caches =
      (.error (.attributeError "UNRESTRICTED".toList), o.caches) := by
    unfold Engine.normalizeClassification
    rw [ho.enforce]
    show (liftM o.engine.getUnrestricted : Method Str).run o.caches = _
    rw [run_liftExcept, hun]
  refine ⟨⟨ho.enforce, ho.unrestricted⟩, fun t ht => ?_⟩
  change ((o.engine.normalizeClassification rt c {}).run o.caches).1 = .ok t at ht
  rw [hrun] at ht
  contradiction

theorem keeps_off_readTables {d : Definition} (h : d.enforce = some false) :
    Keeps Off (readTables rt d) fun _ => True := by
  unfold readTables
  rw [h]
  refine Keeps.bind (Q := fun enforce => enforce = false) (keeps_pure rfl) fun enforce he => ?_
  refine (keeps_modify fun o ho => ⟨he, ho.unrestricted⟩).bind fun _ _ => ?_
  refine (keeps_need _ _).bind fun dynamicGroups _ => ?_
  refine (keeps_off_modifyEngine fun E => ?_).bind fun _ _ => ?_
  · exact ⟨rfl, rfl⟩
  refine (keeps_need _ _).bind fun levels _ => ?_
  refine (keeps_off_addLevels levels).bind fun _ _ => ?_
  refine (keeps_off_foldl (f := Engine.addRequired) (fun E x => ⟨rfl, rfl⟩) _).bind fun _ _ => ?_
  refine (keeps_off_foldl (f := Engine.addGroup rt) (fun E x => ⟨rfl, rfl⟩) _).bind fun _ _ => ?_
  exact keeps_off_foldl (f := Engine.addSubgroup rt) (fun E x => ⟨rfl, rfl⟩) _

variable (rt) in
/-- The body of the constructor does not come to an end. -/
theorem keeps_off_initBody {d : Definition} (h : d.enforce = some false) :
    Keeps Off (initBody rt d) fun _ => False := by
  refine (keeps_off_readTables h).bind fun _ _ => ?_
  refine keeps_off_fillCaches.bind fun _ _ => ?_
  refine (keeps_off_needValid _ _ _).bind fun u _ => ?_
  refine (keeps_off_needValid _ _ _).bind fun r _ => ?_
  exact (keeps_off_normalize u).bind fun u' hu' => hu'.elim

/-- An engine that is constructed with classification off ends up in the invalid mode. -/
theorem init_invalid {d : Definition} (h : d.enforce = some false) :
    (engineOf rt d).invalidMode = true := by
  have hbody := (keeps_off_initBody rt h ⟨Engine.empty d, {}⟩ ⟨rfl, rfl⟩).2
  unfold engineOf init
  generalize (initBody rt d).run ⟨Engine.empty d, {}⟩ = r at hbody ⊢
  rcases r with ⟨e | u, o⟩
  · rfl
  · exact (hbody u rfl).elim

end Off

end Classification

/-- Turning enforcement off hides nothing: the engine is usable, every marking is accessible and
the items of every case stay. -/
structure HidesNothing (rt : Runtime) (E : Engine) : Prop where
  usable : E.invalidMode = false
  accessible : ∀ u c ignoreInvalid, E.isAccessible rt u c ignoreInvalid = .ok true
  items : ∀ (α : Type) (classification : α → Option Str) u xs,
    E.filterItems rt classification u xs = .ok xs

/-- With enforcement off, whatever else a definition says, the engine is in the invalid mode,
nothing is accessible and a case keeps just its items without a classification. -/
theorem enforce_off_hides (rt : Runtime) (d : Definition) (h : d.enforce = some false) :
    ¬ HidesNothing rt (engineOf rt d) ∧ (engineOf rt d).invalidMode = true ∧
      (∀ u c ignoreInvalid, (engineOf rt d).isAccessible rt u c ignoreInvalid = .ok false) ∧
      ∀ (α : Type) (classification : α → Option Str) u xs,
        (engineOf rt d).filterItems rt classification u xs =
          .ok (xs.filter fun x => (classification x).isNone) := by
  have hinv : (engineOf rt d).invalidMode = true := Classification.init_invalid h
  refine ⟨fun hn => ?_, hinv, fun u c i => if_pos hinv, fun α cl u xs =>
    Engine.filterItems_invalid hinv cl u xs⟩
  rw [hn.usable] at hinv
  contradiction

/-- One level, nothing else, and enforcement off. -/
def unenforced : Definition where
  enforce := some false
  dynamicGroups := some false
  levels := some [{ name := "UNRESTRICTED".toList, shortName := "U".toList, lvl := 100 }]
  required := some []
  groups := some []
  subgroups := some []
  unrestricted := some "U".toList
  restricted := some "U".toList

theorem enforce_off_hides_unenforced :
    ¬ HidesNothing Runtime.ascii (engineOf Runtime.ascii unenforced) :=
  (enforce_off_hides Runtime.ascii unenforced rfl).1

/-- The same definition is valid once it is enforced; off, it hides an item of its own level. -/
theorem unenforced_hides :
    Valid Runtime.ascii { unenforced with enforce := some true } ∧
      (engineOf Runtime.ascii unenforced).invalidMode = true ∧
      (engineOf Runtime.ascii unenforced).isAccessible Runtime.ascii "U".toList (some "U".toList)
        false = .ok false ∧
      (engineOf Runtime.ascii unenforced).filterItems Runtime.ascii some "U".toList
        ["U".toList] = .ok [] := by decide +kernel

end Howler
