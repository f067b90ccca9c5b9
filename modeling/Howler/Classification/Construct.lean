import Howler.Classification.Engine
import Howler.Classification.Legible
import Howler.Python.Stateful

namespace Howler

open Python

namespace Engine

variable {rt : Runtime} {E : Engine}

/-- All values of a table of aliases are among these keys. -/
def ValuesIn (m : Dict Str (List Str)) (ks : List Str) : Prop := ∀ e ∈ m, ∀ k ∈ e.2, k ∈ ks

theorem ValuesIn.set {m : Dict Str (List Str)} {ks vs : List Str} {a : Str} (h : ValuesIn m ks)
    (hv : ∀ k ∈ vs, k ∈ ks) : ValuesIn (m.set a vs) ks := by
  intro e he
  cases Dict.mem_set he with
  | inl he => rw [he]; exact hv
  | inr he => exact h e he

theorem ValuesIn.getD {m : Dict Str (List Str)} {ks : List Str} (h : ValuesIn m ks) (a : Str) :
    ∀ k ∈ (m.get? a).getD [], k ∈ ks := by
  cases hg : m.get? a with
  | none => simp
  | some vs => exact h _ (Dict.mem_of_get? hg)

theorem ValuesIn.addAlias {m : Dict Str (List Str)} {ks : List Str} {short : Str}
    (h : ValuesIn m ks) (hs : short ∈ ks) (a : Str) : ValuesIn (addAlias rt short m a) ks := by
  apply h.set
  intro k hk
  rw [Runtime.mem_listSet, List.mem_append] at hk
  cases hk with
  | inl hk => exact h.getD a k hk
  | inr hk => exact List.mem_singleton.mp hk ▸ hs

theorem ValuesIn.foldl {m : Dict Str (List Str)} {ks aliases : List Str}
    {f : Dict Str (List Str) → Str → Dict Str (List Str)}
    (hf : ∀ m a, ValuesIn m ks → ValuesIn (f m a) ks) (h : ValuesIn m ks) :
    ValuesIn (aliases.foldl f m) ks := by
  induction aliases generalizing m with
  | nil => exact h
  | cons a aliases ih => exact ih (hf m a h)

theorem ValuesIn.addAliases {m : Dict Str (List Str)} {ks : List Str} {x : Item}
    (h : ValuesIn m ks) (hs : x.shortName ∈ ks) : ValuesIn (addAliases rt x m) ks := by
  have hfold : ValuesIn (x.aliases.foldl (Engine.addAlias rt x.shortName) m) ks :=
    h.foldl fun m a hm => hm.addAlias hs a
  unfold Engine.addAliases
  cases x.params.solitaryDisplayName with
  | none => exact hfold
  | some s =>
    dsimp only
    split_ifs
    · exact hfold
    · exact hfold.addAlias hs s

/-- The two tables of names stay consistent when an item is added. -/
theorem names_set {lts stl : Dict Str Str} {name short : Str} (h : ∀ e ∈ lts, e.2 ∈ stl.keys) :
    ∀ e ∈ lts.set name short, e.2 ∈ (stl.set short name).keys := by
  intro e he
  rw [Dict.mem_keys_set]
  cases Dict.mem_set he with
  | inl he => exact .inl (by rw [he])
  | inr he => exact .inr (h e he)

theorem ValuesIn.keys_set {m : Dict Str (List Str)} {stl : Dict Str Str} {name short : Str}
    (h : ValuesIn m stl.keys) : ValuesIn m (stl.set short name).keys := by
  intro e he k hk
  rw [Dict.mem_keys_set]
  exact .inr (h e he k hk)

theorem coherent_empty (d : Definition) : (empty d).Coherent := by
  constructor <;> exact fun _ h => absurd h List.not_mem_nil

theorem coherent_addLevel (h : E.Coherent) {x : LevelItem} {E' : Engine}
    (he : E.addLevel x = .ok E') : E'.Coherent := by
  unfold addLevel at he
  split_ifs at he
  obtain rfl := Except.ok.inj he
  exact ⟨h.1, h.2, h.3, h.4, h.5, h.6⟩

theorem coherent_addRequired (h : E.Coherent) (x : Item) : (E.addRequired x).Coherent where
  reqName := names_set h.reqName
  reqAlias := by
    have hkeys : x.shortName ∈ (E.accessReqMapStl.set x.shortName x.name).keys :=
      (Dict.mem_keys_set _ _ _ _).mpr (.inl rfl)
    apply ValuesIn.foldl _ (ValuesIn.keys_set h.reqAlias)
    intro m a hm
    apply hm.set
    intro k hk
    cases List.mem_append.mp hk with
    | inl hk => exact hm.getD a k hk
    | inr hk =>
      rw [List.mem_singleton.mp hk]
      exact hkeys
  grpName := h.grpName
  grpAlias := h.grpAlias
  subName := h.subName
  subAlias := h.subAlias

theorem coherent_addGroup (h : E.Coherent) (x : Item) : (E.addGroup rt x).Coherent where
  reqName := h.reqName
  reqAlias := h.reqAlias
  grpName := names_set h.grpName
  grpAlias := ValuesIn.addAliases (ValuesIn.keys_set h.grpAlias)
    ((Dict.mem_keys_set _ _ _ _).mpr (.inl rfl))
  subName := h.subName
  subAlias := h.subAlias

theorem coherent_addSubgroup (h : E.Coherent) (x : Item) : (E.addSubgroup rt x).Coherent where
  reqName := h.reqName
  reqAlias := h.reqAlias
  grpName := h.grpName
  grpAlias := h.grpAlias
  subName := names_set h.subName
  subAlias := ValuesIn.addAliases (ValuesIn.keys_set h.subAlias)
    ((Dict.mem_keys_set _ _ _ _).mpr (.inl rfl))

theorem coherent_foldl {f : Engine → Item → Engine} (hf : ∀ E x, E.Coherent → (f E x).Coherent)
    (h : E.Coherent) (xs : List Item) : (xs.foldl f E).Coherent := by
  induction xs generalizing E with
  | nil => exact h
  | cons x xs ih => exact ih (hf E x h)

end Engine

namespace Classification

variable {rt : Runtime}

/-- The object under construction has coherent tables. -/
def HasCoherent (o : Classification) : Prop := o.engine.Coherent

theorem keeps_call {α : Type} (m : Engine → Method α) :
    Keeps HasCoherent (call m) fun _ => True := by
  intro o ho
  exact ⟨ho, fun _ _ => trivial⟩

theorem keeps_modifyEngine {f : Engine → Engine} (h : ∀ E, E.Coherent → (f E).Coherent) :
    Keeps HasCoherent (modifyEngine f) fun _ => True :=
  keeps_modify fun o ho => h o.engine ho

theorem keeps_addLevels (xs : List LevelItem) :
    Keeps HasCoherent (addLevels xs) fun _ => True := by
  induction xs with
  | nil => exact keeps_pure trivial
  | cons x xs ih =>
    apply keeps_get.bind
    intro o ho
    apply Keeps.bind (keeps_liftExcept fun E' hE' => Engine.coherent_addLevel ho hE')
    intro E' hE'
    exact (keeps_modifyEngine fun _ _ => hE').bind fun _ _ => ih

theorem keeps_need {α : Type} {P : Classification → Prop} (x : Option α) (e : PyError) :
    Keeps P (need x e) fun _ => True := by
  cases x with
  | none => exact keeps_throw e
  | some a => exact keeps_pure trivial

theorem keeps_readTables (d : Definition) : Keeps HasCoherent (readTables rt d) fun _ => True := by
  refine (keeps_need _ _).bind fun enforce _ => ?_
  refine (keeps_modifyEngine fun E h => ?_).bind fun _ _ => ?_
  · exact ⟨h.1, h.2, h.3, h.4, h.5, h.6⟩
  refine (keeps_need _ _).bind fun dynamicGroups _ => ?_
  refine (keeps_modifyEngine fun E h => ?_).bind fun _ _ => ?_
  · exact ⟨h.1, h.2, h.3, h.4, h.5, h.6⟩
  refine (keeps_need _ _).bind fun levels _ => ?_
  refine (keeps_addLevels levels).bind fun _ _ => ?_
  refine (keeps_modifyEngine fun E h => ?_).bind fun _ _ => ?_
  · exact Engine.coherent_foldl (fun E x hE => Engine.coherent_addRequired hE x) h _
  refine (keeps_modifyEngine fun E h => ?_).bind fun _ _ => ?_
  · exact Engine.coherent_foldl (fun E x hE => Engine.coherent_addGroup hE x) h _
  refine keeps_modifyEngine fun E h => ?_
  exact Engine.coherent_foldl (fun E x hE => Engine.coherent_addSubgroup hE x) h _

theorem keeps_fillCaches : Keeps HasCoherent (fillCaches rt) fun _ => True := by
  refine keeps_get.bind fun o _ => ?_
  split_ifs
  · refine (keeps_call _).bind fun long _ => ?_
    have hcaches : ∀ f : Classification → Caches, Keeps HasCoherent
        (modify fun o => { o with caches := f o } : Init Unit) fun _ => True :=
      fun f => keeps_modify fun o ho => ho
    refine (hcaches _).bind fun _ _ => ?_
    refine (keeps_call _).bind fun short _ => ?_
    exact hcaches _
  · exact keeps_pure trivial

theorem keeps_needValid (c12n : Option Str) (key msg : Str) :
    Keeps HasCoherent (needValid rt c12n key msg) fun _ => True := by
  refine (keeps_need _ _).bind fun c _ => ?_
  refine (keeps_call _).bind fun valid _ => ?_
  split_ifs
  · exact keeps_pure trivial
  · exact keeps_throw _

variable (rt) in
theorem keeps_initBody (d : Definition) : Keeps HasCoherent (initBody rt d) fun _ => True := by
  refine (keeps_readTables d).bind fun _ _ => ?_
  refine keeps_fillCaches.bind fun _ _ => ?_
  refine (keeps_needValid _ _ _).bind fun u _ => ?_
  refine (keeps_needValid _ _ _).bind fun r _ => ?_
  refine (keeps_call _).bind fun u' _ => ?_
  refine (keeps_modifyEngine fun E h => ?_).bind fun _ _ => ?_
  · exact ⟨h.1, h.2, h.3, h.4, h.5, h.6⟩
  refine (keeps_call _).bind fun r' _ => ?_
  exact keeps_modifyEngine fun E h => ⟨h.1, h.2, h.3, h.4, h.5, h.6⟩

/-- The tables of every engine are coherent, whatever its definition is. -/
theorem init_coherent (rt : Runtime) (d : Definition) : (init rt d).engine.Coherent := by
  have h := (keeps_initBody rt d ⟨Engine.empty d, {}⟩ (Engine.coherent_empty d)).1
  unfold init
  generalize (initBody rt d).run ⟨Engine.empty d, {}⟩ = r at h
  rcases r with ⟨e | u, o⟩
  · exact ⟨h.1, h.2, h.3, h.4, h.5, h.6⟩
  · exact h

end Classification

end Howler
