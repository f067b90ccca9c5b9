import Howler.Documents.Flatten

namespace Howler.Documents

open Python Structures Json

/-- A value that is found in a document, which lists may be crossed to get to. -/
structure Found where
  path : List Str
  crossed : Bool
  value : Json

namespace Found

/-- The dotted path. -/
def text (f : Found) : Str := join ['.'] f.path

def below (p : List Str) (f : Found) : Found := { f with path := p ++ f.path }

def crossing (f : Found) : Found := { f with crossed := true }

end Found

mutual

/-- The values of a document in their order. -/
def found : Json → List Found
  | .obj fields => foundFields fields
  | .list xs =>
    if xs.any isDict then (foundList xs).map Found.crossing else [⟨[], false, .list xs⟩]
  | v => [⟨[], false, v⟩]

def foundFields : List (Str × Json) → List Found
  | [] => []
  | (k, v) :: fields => (found v).map (Found.below [k]) ++ foundFields fields

def foundList : List Json → List Found
  | [] => []
  | x :: xs => found x ++ foundList xs

end

/-- The values at a dotted path. -/
def foundAt (fs : List Found) (t : Str) : List Found := fs.filter fun f => f.text = t

/-- What `flatten_deep` is for. -/
def Flattens (data : Dict Str Json) : Prop :=
  ∃ final extensions, flattenDeep (.obj data) = .ok (final, extensions) ∧
    (∀ e ∈ extensions, e.2 = []) ∧ (Dict.keys final).Nodup ∧
    (∀ t, t ∈ Dict.keys final ↔ ∃ f ∈ found (.obj data), f.text = t) ∧
    ∀ f ∈ found (.obj data), (final.get? f.text).map Object.value = some
      (if f.crossed then
        .list ((foundAt (found (.obj data)) f.text).flatMap fun f => elements f.value)
      else f.value)

/-- A document, and the maps in its lists. -/
inductive Within (data : Dict Str Json) : Dict Str Json → Prop
  | self : Within data data
  | entry {fields e : Dict Str Json} {l : List Str × Json} {xs : List Json} :
    Within data fields → l ∈ places fields → l.2 = .list xs → .obj e ∈ xs → Within data e

/-- The paths of a document have dotted paths of their own. -/
structure Legible (fields : Dict Str Json) : Prop where
  spelled : ∀ l ∈ places fields, spell [] l.1 = join ['.'] l.1
  nodup : ((places fields).map fun l => join ['.'] l.1).Nodup
  apart : (places fields).Pairwise fun l l' =>
    ∀ f ∈ found l.2, ∀ f' ∈ found l'.2, (f.below l.1).text ≠ (f'.below l'.1).text

def Unambiguous (data : Dict Str Json) : Prop := ∀ fields, Within data fields → Legible fields

/-- A list with a map in it has only maps in it. -/
def Uniform (data : Dict Str Json) : Prop :=
  ∀ fields, Within data fields → ∀ l ∈ places fields, ∀ xs, l.2 = .list xs →
    xs.any isDict = true → xs.all isDict = true

def isList : Json → Bool
  | .list _ => true
  | _ => false

/-- If the first value at a dotted path is a list, the later entries have nothing for it. -/
def SteadyList (xs : List Json) : Prop :=
  ∀ before e after, xs = before ++ e :: after →
    ∀ t f fs, foundAt (foundList before) t = f :: fs → isList f.value = true →
      ∀ g ∈ foundAt (found e) t, g.value = .list []

def Steady (data : Dict Str Json) : Prop :=
  ∀ fields, Within data fields → ∀ l ∈ places fields, ∀ xs, l.2 = .list xs →
    xs.any isDict = true → SteadyList xs

mutual

/-- The keys of a value are not empty and have no dots. -/
def named : Json → Bool
  | .obj fields => namedFields fields
  | .list xs => namedList xs
  | _ => true

def namedFields : List (Str × Json) → Bool
  | [] => true
  | (k, v) :: fields => k ≠ [] && '.' ∉ k && named v && namedFields fields

def namedList : List Json → Bool
  | [] => true
  | x :: xs => named x && namedList xs

end

section Within

variable {data fields e : Dict Str Json} {l : List Str × Json} {xs : List Json}

theorem Within.trans {data' : Dict Str Json} (h : Within data data') (h' : Within data' fields) :
    Within data fields := by
  induction h' with
  | self => exact h
  | entry _ hl hxs he ih => exact .entry ih hl hxs he

theorem within_entry (hl : l ∈ places data) (hxs : l.2 = .list xs) (he : .obj e ∈ xs)
    (h : Within e fields) : Within data fields :=
  (Within.entry .self hl hxs he).trans h

/-- A map in the lists of a document is in the lists of an entry. -/
theorem Within.cases_entry (h : Within data fields) : fields = data ∨
    ∃ l xs e, l ∈ places data ∧ l.2 = .list xs ∧ .obj e ∈ xs ∧ Within e fields := by
  induction h with
  | self => exact .inl rfl
  | entry _ hl hxs he ih =>
    cases ih with
    | inl heq =>
      subst heq
      exact .inr ⟨_, _, _, hl, hxs, he, .self⟩
    | inr ih =>
      obtain ⟨l', xs', e', hl', hxs', he', hwithin⟩ := ih
      exact .inr ⟨l', xs', e', hl', hxs', he', .entry hwithin hl hxs he⟩

end Within

section Found

variable {fields : Dict Str Json} {f : Found} {t : Str} {fs gs : List Found}

@[simp] theorem Found.below_value (p : List Str) (f : Found) : (f.below p).value = f.value := rfl

@[simp] theorem Found.below_crossed (p : List Str) (f : Found) :
    (f.below p).crossed = f.crossed := rfl

@[simp] theorem Found.crossing_text (f : Found) : f.crossing.text = f.text := rfl

@[simp] theorem Found.crossing_value (f : Found) : f.crossing.value = f.value := rfl

theorem Found.below_below (p q : List Str) (f : Found) :
    (f.below q).below p = f.below (p ++ q) := by
  simp [Found.below]

theorem Found.below_nil (f : Found) : f.below [] = f := rfl

/-- What is found in a document is found at its places. -/
theorem found_eq (j : Json) :
    found j = (placesOf j).flatMap fun l => (found l.2).map (Found.below l.1) := by
  induction j using objInduction with
  | leaf j hj =>
    rw [placesOf_of_not_obj hj, List.flatMap_singleton]
    have hid : Found.below [] = id := funext Found.below_nil
    rw [hid, List.map_id]
  | obj fields ih =>
    rw [placesOf_obj, found]
    induction fields with
    | nil => rfl
    | cons e fields ihfields =>
      obtain ⟨k, v⟩ := e
      rw [foundFields, places_cons, List.flatMap_append, ← ihfields fun e he =>
        ih e (List.mem_cons_of_mem _ he), ih (k, v) (by simp), List.map_flatMap,
        List.flatMap_map]
      simp only [List.map_map]
      have hcomp : ∀ p : List Str, Found.below [k] ∘ Found.below p = Found.below (k :: p) :=
        fun p => funext fun f => Found.below_below [k] p f
      simp only [hcomp]

theorem mem_found : f ∈ found (.obj fields) ↔
    ∃ l ∈ places fields, ∃ g ∈ found l.2, f = g.below l.1 := by
  rw [found_eq, placesOf_obj]
  simp only [List.mem_flatMap, List.mem_map, eq_comm]

theorem foundAt_append (fs gs : List Found) (t : Str) :
    foundAt (fs ++ gs) t = foundAt fs t ++ foundAt gs t := List.filter_append ..

theorem mem_foundAt : f ∈ foundAt fs t ↔ f ∈ fs ∧ f.text = t := by
  simp [foundAt]

theorem foundAt_eq_nil : foundAt fs t = [] ↔ ∀ f ∈ fs, f.text ≠ t := by
  simp [foundAt]

/-- What a dotted path holds of the values found at it. -/
def held : List Found → Option Object
  | [] => none
  | f :: fs => some
    (if f.crossed then ⟨.list ((f :: fs).flatMap fun f => elements f.value), isList f.value⟩
    else ⟨f.value, true⟩)

/-- A value that no list is crossed for has its dotted path for itself. -/
def Lone (fs : List Found) : Prop := ∀ f ∈ fs, f.crossed = false → fs = [f]

theorem held_crossing (h : Lone fs) :
    held (fs.map Found.crossing) = (held fs).map Object.listed := by
  cases fs with
  | nil => rfl
  | cons f fs =>
    cases hf : f.crossed with
    | false =>
      obtain ⟨-, rfl⟩ := List.cons.inj (h f (by simp) hf)
      simp only [List.map_cons, List.map_nil, held, Found.crossing, hf, Option.map_some]
      cases hv : f.value with
      | _ => simp [elements, isList, Object.listed]
    | true =>
      simp [held, Found.crossing, hf, Object.listed, List.flatMap_map]

end Found

section Absorb

variable {d : Dict Str Object} {log : List (Str × List Json)} {k key t : Str} {child o : Object}

/-- Nothing was added to a list of the given document. -/
def Unextended (log : List (Str × List Json)) : Prop := ∀ e ∈ log, e.2 = []

theorem unextended_append {log' : List (Str × List Json)} :
    Unextended (log ++ log') ↔ Unextended log ∧ Unextended log' := by
  simp only [Unextended, List.mem_append]
  constructor
  · intro h
    exact ⟨fun e he => h e (.inl he), fun e he => h e (.inr he)⟩
  · intro h e he
    exact he.elim (h.1 e) (h.2 e)

/-- A value put to what is held at its dotted path. -/
def joined : Option Object → Object → Object
  | none, child => child.listed
  | some o, child => ⟨.list (elements o.value ++ elements child.value), o.given⟩

theorem absorb_ok (h : ∀ o, d.get? k = some o → isList o.value = true) :
    ∃ log', absorb (d, log) k child = .ok (d.set k (joined (d.get? k) child), log') ∧
      (Unextended log' ↔ Unextended log ∧
        ∀ o, d.get? k = some o → o.given = true → elements child.value = []) := by
  cases hget : d.get? k with
  | none => exact ⟨log, by simp [absorb, hget, joined], by simp⟩
  | some o =>
    obtain ⟨v, given⟩ := o
    have hlist := h _ hget
    cases v with
    | list xs =>
      refine ⟨log ++ if given then [(k, elements child.value)] else [], ?_, ?_⟩
      · rw [absorb, hget]
        rfl
      cases given with
      | false => simp
      | true =>
        rw [if_pos rfl, unextended_append]
        simp [Unextended]
    | _ => cases hlist

/-- The values below an entry are put to what is held at their dotted paths. -/
theorem foldlM_absorb_ok {flat : Dict Str Object} (hflat : (Dict.keys flat).Nodup)
    (hd : (Dict.keys d).Nodup) (h : ∀ s ∈ Dict.keys flat, ∀ o, d.get? (key ++ '.' :: s) = some o →
      isList o.value = true) :
    ∃ d' log', flat.foldlM (fun final e => absorb final (key ++ '.' :: e.1) e.2) (d, log) =
        .ok (d', log') ∧ (Dict.keys d').Nodup ∧
      (∀ s, d'.get? (key ++ '.' :: s) = match flat.get? s with
        | some o => some (joined (d.get? (key ++ '.' :: s)) o)
        | none => d.get? (key ++ '.' :: s)) ∧
      (∀ t, (∀ s, t ≠ key ++ '.' :: s) → d'.get? t = d.get? t) ∧
      (Unextended log' ↔ Unextended log ∧ ∀ s o, flat.get? s = some o →
        ∀ o', d.get? (key ++ '.' :: s) = some o' → o'.given = true → elements o.value = []) := by
  induction flat generalizing d log with
  | nil => exact ⟨d, log, rfl, hd, fun _ => rfl, fun _ _ => rfl, by simp⟩
  | cons e flat ih =>
    obtain ⟨s₀, o₀⟩ := e
    obtain ⟨hs₀, hflat⟩ := List.nodup_cons.mp hflat
    have hnone : Dict.get? flat s₀ = none := (Dict.get?_eq_none_iff _ _).mpr hs₀
    obtain ⟨log₁, habsorb, hlog₁⟩ := @absorb_ok _ log _ o₀
        fun o ho => h s₀ (by simp [Dict.keys]) o ho
    have hother : ∀ s, s ≠ s₀ →
        (d.set (key ++ '.' :: s₀) (joined (d.get? (key ++ '.' :: s₀)) o₀)).get? (key ++ '.' :: s) =
          d.get? (key ++ '.' :: s) := by
      intro s hs
      rw [Dict.get?_set, if_neg (by simpa using hs)]
    obtain ⟨d', log', hfold, hd', hsome, hrest, hlog'⟩ := @ih _ log₁ hflat
      (Dict.nodup_keys_set hd (key ++ '.' :: s₀) (joined (d.get? (key ++ '.' :: s₀)) o₀))
      fun s hs o ho => by
        have hne : s ≠ s₀ := fun heq => hs₀ (heq ▸ hs)
        rw [hother s hne] at ho
        exact h s (List.mem_cons_of_mem _ hs) o ho
    refine ⟨d', log', ?_, hd', fun s => ?_, fun t ht => ?_, ?_⟩
    · rw [List.foldlM_cons, habsorb]
      exact hfold
    · rw [hsome, Dict.get?_cons]
      by_cases hs : s = s₀
      · rw [if_pos hs, hs, hnone, Dict.get?_set, if_pos rfl]
      · rw [if_neg hs, hother s hs]
    · rw [hrest t ht, Dict.get?_set, if_neg (ht s₀)]
    · rw [hlog', hlog₁]
      constructor
      · intro hall
        obtain ⟨⟨hlog, hfirst⟩, hall⟩ := hall
        refine ⟨hlog, fun s o ho o' ho' => ?_⟩
        rw [Dict.get?_cons] at ho
        by_cases hs : s = s₀
        · rw [if_pos hs] at ho
          obtain rfl := Option.some.inj ho
          exact hfirst o' (hs ▸ ho')
        · rw [if_neg hs] at ho
          exact hall s o ho o' (by rw [hother s hs]; exact ho')
      · intro hall
        obtain ⟨hlog, hall⟩ := hall
        refine ⟨⟨hlog, fun o' ho' => hall s₀ o₀ (by rw [Dict.get?_cons, if_pos rfl]) o' ho'⟩,
          fun s o ho o' ho' => ?_⟩
        have hs : s ≠ s₀ := by
          intro heq
          rw [heq, hnone] at ho
          cases ho
        rw [hother s hs] at ho'
        exact hall s o (by rw [Dict.get?_cons, if_neg hs]; exact ho) o' ho'

end Absorb

section Entries

variable {e data : Dict Str Json} {flat : Flat} {occ fs : List Found} {p q : List Str} {t : Str}
  {final : Flat}

theorem join_append (hp : p ≠ []) (hq : q ≠ []) :
    join ['.'] (p ++ q) = join ['.'] p ++ '.' :: join ['.'] q := by
  induction p with
  | nil => contradiction
  | cons x p ih =>
    cases p with
    | nil =>
      obtain ⟨y, q, rfl⟩ := List.exists_cons_of_ne_nil hq
      rw [join_singleton, List.singleton_append, join_cons_cons]
      simp
    | cons y p =>
      have hrec : join ['.'] (y :: (p ++ q)) = join ['.'] (y :: p) ++ '.' :: join ['.'] q :=
        ih (by simp)
      rw [List.cons_append, List.cons_append, join_cons_cons, hrec, join_cons_cons]
      simp

theorem places_path_ne_nil {l : List Str × Json} (h : l ∈ places e) : l.1 ≠ [] := by
  obtain ⟨k, v, q, -, hp, -⟩ := mem_leavesFields.mp (List.mem_of_mem_filter h)
  rw [hp]
  simp

theorem found_path_ne_nil {f : Found} (h : f ∈ found (.obj e)) : f.path ≠ [] := by
  obtain ⟨l, hl, g, -, rfl⟩ := mem_found.mp h
  simp [Found.below, places_path_ne_nil hl]

/-- What is kept for the values found, by their dotted paths. -/
structure Holds (occ : List Found) (final : Flat) : Prop where
  nodup : (Dict.keys final.1).Nodup
  get : ∀ t, final.1.get? t = held (foundAt occ t)

theorem held_below (p : List Str) (fs : List Found) : held (fs.map (Found.below p)) = held fs := by
  cases fs with
  | nil => rfl
  | cons f fs => simp [held, List.flatMap_map]

/-- The values of an entry of the list at a path, as they are found in the document. -/
def entered (p : List Str) (fs : List Found) : List Found :=
  fs.map fun f => f.crossing.below p

theorem entered_append (p : List Str) (fs gs : List Found) :
    entered p (fs ++ gs) = entered p fs ++ entered p gs := List.map_append

theorem held_entered (p : List Str) (h : Lone fs) :
    held (entered p fs) = (held fs).map Object.listed := by
  have hmap : entered p fs = (fs.map Found.crossing).map (Found.below p) := by
    rw [List.map_map]
    rfl
  rw [hmap, held_below, held_crossing h]

theorem foundAt_entered (hp : p ≠ []) (h : ∀ f ∈ fs, f.path ≠ []) (s : Str) :
    foundAt (entered p fs) (join ['.'] p ++ '.' :: s) = entered p (foundAt fs s) := by
  rw [foundAt, foundAt, entered, entered, List.filter_map]
  congr 1
  refine List.filter_congr fun f hf => ?_
  have htext : (f.crossing.below p).text = join ['.'] p ++ '.' :: f.text :=
    join_append hp (h f hf)
  simp [htext]

theorem foundAt_entered_other (hp : p ≠ []) (h : ∀ f ∈ fs, f.path ≠ [])
    (ht : ∀ s, t ≠ join ['.'] p ++ '.' :: s) : foundAt (entered p fs) t = [] := by
  rw [foundAt_eq_nil]
  intro f hf heq
  obtain ⟨g, hg, rfl⟩ := List.mem_map.mp hf
  exact ht g.text (heq.symm.trans (join_append hp (h g hg)))

theorem elements_eq_nil {v : Json} : elements v = [] ↔ v = .list [] := by
  cases v with
  | _ => simp [elements]

theorem elements_held (hlone : Lone fs) {o : Object} (ho : held fs = some o) :
    elements o.value = fs.flatMap fun f => elements f.value := by
  cases fs with
  | nil => cases ho
  | cons f fs =>
    cases hf : f.crossed with
    | false =>
      obtain ⟨-, rfl⟩ := List.cons.inj (hlone f (by simp) hf)
      simp only [held, hf] at ho
      obtain rfl := Option.some.inj ho
      simp
    | true =>
      simp only [held, hf] at ho
      obtain rfl := Option.some.inj ho
      rfl

/-- What is held after the values of an entry: those before come first. -/
theorem held_append_entered {occ fs : List Found} (p : List Str) (hocc : ∀ f ∈ occ, f.crossed = true)
    (hne : occ ≠ []) (hlone : Lone fs) {o child : Object} (ho : held occ = some o)
    (hchild : held fs = some child) :
    held (occ ++ entered p fs) = some (joined (some o) child) := by
  obtain ⟨f, occ, rfl⟩ := List.exists_cons_of_ne_nil hne
  have hf := hocc f (by simp)
  have hvalue := elements_held hlone hchild
  have hentered : (entered p fs).flatMap (fun f => elements f.value) =
      fs.flatMap fun f => elements f.value := by
    simp [entered, List.flatMap_map]
  simp only [held, hf, if_true] at ho
  obtain rfl := Option.some.inj ho
  simp only [List.cons_append, held, hf, if_true, joined, hvalue]
  rw [← List.cons_append, List.flatMap_append, hentered]
  rfl

/-- What flattening a map in a list gives. -/
structure Deep (e : Dict Str Json) (flat : Flat) : Prop where
  holds : Holds (found (.obj e)) flat
  lone : ∀ t, Lone (foundAt (found (.obj e)) t)
  extended : Unextended flat.2 ↔ Steady e

/-- An entry of the list at a path. -/
theorem absorbAll_ok {e : Dict Str Json} {log : List (Str × List Json)} {d : Dict Str Object}
    (hp : p ≠ []) (hdeep : Deep e flat) (hholds : Holds occ (d, log))
    (hocc : ∀ s, foundAt (found (.obj e)) s ≠ [] →
      ∀ f ∈ foundAt occ (join ['.'] p ++ '.' :: s), f.crossed = true) :
    ∃ final, absorbAll (d, log) (join ['.'] p) flat = .ok final ∧
      Holds (occ ++ entered p (found (.obj e))) final ∧
      (Unextended final.2 ↔ Unextended log ∧ Steady e ∧
        ∀ s f fs, foundAt occ (join ['.'] p ++ '.' :: s) = f :: fs → isList f.value = true →
          ∀ g ∈ foundAt (found (.obj e)) s, g.value = .list []) := by
  obtain ⟨⟨hflat, hget⟩, hlone, hextended⟩ := hdeep
  have hpath : ∀ f ∈ found (.obj e), f.path ≠ [] := fun f => found_path_ne_nil
  have hlists : ∀ s ∈ Dict.keys flat.1, ∀ o, d.get? (join ['.'] p ++ '.' :: s) = some o →
      isList o.value = true := by
    intro s hs o ho
    obtain ⟨o', ho'⟩ := (Dict.mem_keys_iff _ _).mp hs
    rw [hget] at ho'
    have hne : foundAt (found (.obj e)) s ≠ [] := by
      intro hnil
      rw [hnil] at ho'
      cases ho'
    rw [hholds.get] at ho
    cases hat : foundAt occ (join ['.'] p ++ '.' :: s) with
    | nil =>
      rw [hat] at ho
      cases ho
    | cons f fs =>
      have hf := hocc s hne f (by simp [hat])
      rw [hat] at ho
      simp only [held, hf, if_true] at ho
      obtain rfl := Option.some.inj ho
      rfl
  obtain ⟨d', log', hfold, hd', hsome, hrest, hlog'⟩ :=
    @foldlM_absorb_ok _ (log ++ flat.2) _ _ hflat hholds.nodup hlists
  refine ⟨(d', log'), hfold, ⟨hd', fun t => ?_⟩, ?_⟩
  · rw [foundAt_append]
    by_cases ht : ∃ s, t = join ['.'] p ++ '.' :: s
    · obtain ⟨s, rfl⟩ := ht
      rw [hsome, hget, foundAt_entered hp hpath, hholds.get]
      cases hat : foundAt (found (.obj e)) s with
      | nil => simp [held, entered]
      | cons g gs =>
        have hlone := hlone s
        rw [hat] at hlone
        obtain ⟨child, hchild⟩ : ∃ child, held (g :: gs) = some child := ⟨_, rfl⟩
        rw [hchild]
        dsimp only
        cases hbefore : foundAt occ (join ['.'] p ++ '.' :: s) with
        | nil =>
          rw [List.nil_append, held_entered p hlone, hchild]
          rfl
        | cons f fs =>
          have hcrossed : ∀ f' ∈ f :: fs, f'.crossed = true := by
            rw [← hbefore]
            exact hocc s (by simp [hat])
          obtain ⟨o, ho⟩ : ∃ o, held (f :: fs) = some o := ⟨_, rfl⟩
          rw [held_append_entered p hcrossed (by simp) hlone ho hchild, ho]
    · have ht : ∀ s, t ≠ join ['.'] p ++ '.' :: s := fun s heq => ht ⟨s, heq⟩
      rw [hrest t ht, foundAt_entered_other hp hpath ht, List.append_nil]
      exact hholds.get t
  · rw [hlog', unextended_append, hextended, and_assoc]
    refine and_congr_right fun _ => and_congr_right fun _ => ?_
    constructor
    · intro h s f fs hat hf g hg
      obtain ⟨child, hchild⟩ : ∃ child, held (foundAt (found (.obj e)) s) = some child := by
        cases hat : foundAt (found (.obj e)) s with
        | nil =>
          rw [hat] at hg
          contradiction
        | cons g gs => exact ⟨_, rfl⟩
      have hcrossed := hocc s (List.ne_nil_of_mem hg) f (by simp [hat])
      have hvalue := h s child (by rw [hget, hchild]) ⟨_, isList f.value⟩
        (by rw [hholds.get, hat, held, if_pos hcrossed]) hf
      rw [elements_held (hlone s) hchild] at hvalue
      exact elements_eq_nil.mp (List.flatMap_eq_nil_iff.mp hvalue g hg)
    · intro h s child hchild o ho hgiven
      rw [hget] at hchild
      rw [hholds.get] at ho
      rw [elements_held (hlone s) hchild, List.flatMap_eq_nil_iff]
      intro g hg
      cases hat : foundAt occ (join ['.'] p ++ '.' :: s) with
      | nil =>
        rw [hat] at ho
        cases ho
      | cons f fs =>
        have hcrossed := hocc s (List.ne_nil_of_mem hg) f (by simp [hat])
        rw [hat, held, if_pos hcrossed] at ho
        obtain rfl := Option.some.inj ho
        exact elements_eq_nil.mpr (h s f fs hat hgiven g hg)

theorem foundList_append (xs ys : List Json) :
    foundList (xs ++ ys) = foundList xs ++ foundList ys := by
  induction xs with
  | nil => rfl
  | cons x xs ih => rw [List.cons_append, foundList, foundList, ih, List.append_assoc]

theorem mem_foundList {f : Found} {xs : List Json} : f ∈ foundList xs ↔ ∃ x ∈ xs, f ∈ found x := by
  induction xs with
  | nil => simp [foundList]
  | cons x xs ih => simp [foundList, ih]

theorem steadyList_snoc {xs : List Json} {x : Json} : SteadyList (xs ++ [x]) ↔ SteadyList xs ∧
    ∀ t f fs, foundAt (foundList xs) t = f :: fs → isList f.value = true →
      ∀ g ∈ foundAt (found x) t, g.value = .list [] := by
  constructor
  · intro h
    refine ⟨fun before e after heq => h before e (after ++ [x]) (by simp [heq]), h xs x [] rfl⟩
  · intro h before e after heq
    cases after using List.reverseRecOn with
    | nil =>
      obtain ⟨rfl, hx⟩ := List.append_inj' heq rfl
      obtain ⟨rfl, -⟩ := List.cons.inj hx
      exact h.2
    | append_singleton after y =>
      have heq' : xs ++ [x] = (before ++ e :: after) ++ [y] := by simp [heq]
      exact h.1 before e after (List.append_inj' heq' rfl).1

/-- The entries of the list at a path, which is apart from what was found before. -/
theorem absorb_entries {deep : Json → Except FlattenError Flat} {xs : List Json}
    (hp : p ≠ []) (hxs : ∀ x ∈ xs, ∃ e flat, x = .obj e ∧ deep x = .ok flat ∧ Deep e flat)
    (hholds : Holds occ final)
    (hocc : ∀ f ∈ foundList xs, foundAt occ (join ['.'] p ++ '.' :: f.text) = []) :
    ∃ final', xs.foldlM (fun final x => do absorbAll final (join ['.'] p) (← deep x)) final =
        .ok final' ∧ Holds (occ ++ entered p (foundList xs)) final' ∧
      (Unextended final'.2 ↔ Unextended final.2 ∧ SteadyList xs ∧
        ∀ e, .obj e ∈ xs → Steady e) := by
  induction xs using List.reverseRecOn with
  | nil =>
    refine ⟨final, rfl, by simpa [foundList, entered] using hholds, ?_⟩
    simp [SteadyList]
  | append_singleton xs x ih =>
    obtain ⟨mid, hmid, hholds', hlog⟩ := ih (fun x hx => hxs x (by simp [hx])) fun f hf =>
      hocc f (by simp [foundList_append, hf])
    obtain ⟨e, flat, rfl, hdeep, hspec⟩ := hxs x (by simp)
    have hpath : ∀ f ∈ foundList xs, f.path ≠ [] := by
      intro f hf
      obtain ⟨x, hx, hf⟩ := mem_foundList.mp hf
      obtain ⟨e, -, rfl, -⟩ := hxs x (by simp [hx])
      exact found_path_ne_nil hf
    -- what is held at a dotted path of the entry is from the entries before
    have hat : ∀ s, foundAt (found (.obj e)) s ≠ [] →
        foundAt (occ ++ entered p (foundList xs)) (join ['.'] p ++ '.' :: s) =
          entered p (foundAt (foundList xs) s) := by
      intro s hs
      obtain ⟨f, hf⟩ := List.exists_mem_of_ne_nil _ hs
      obtain ⟨hmem, rfl⟩ := mem_foundAt.mp hf
      have hnil := hocc f (by simp [foundList_append, foundList, hmem])
      rw [foundAt_append, hnil, List.nil_append, foundAt_entered hp hpath]
    obtain ⟨final', habsorb, hfinal, hlog'⟩ := absorbAll_ok hp hspec hholds' fun s hs f hf => by
      rw [hat s hs] at hf
      obtain ⟨g, -, rfl⟩ := List.mem_map.mp hf
      rfl
    refine ⟨final', ?_, ?_, ?_⟩
    · rw [List.foldlM_append, hmid]
      simp only [List.foldlM_cons, List.foldlM_nil, hdeep]
      exact (bind_pure _).trans habsorb
    · rw [foundList_append, entered_append, ← List.append_assoc]
      simpa [foundList] using hfinal
    · have hcond : (∀ s f fs, foundAt (occ ++ entered p (foundList xs)) (join ['.'] p ++ '.' :: s) =
            f :: fs → isList f.value = true →
              ∀ g ∈ foundAt (found (.obj e)) s, g.value = .list []) ↔
          ∀ s f fs, foundAt (foundList xs) s = f :: fs → isList f.value = true →
            ∀ g ∈ foundAt (found (.obj e)) s, g.value = .list [] := by
        constructor
        · intro h s f fs hbefore hf g hg
          have hs := hat s (List.ne_nil_of_mem hg)
          rw [hbefore] at hs
          exact h s _ _ hs hf g hg
        · intro h s f fs hbefore hf g hg
          have hs := hat s (List.ne_nil_of_mem hg)
          rw [hbefore] at hs
          cases hxsat : foundAt (foundList xs) s with
          | nil =>
            rw [hxsat] at hs
            cases hs
          | cons f' fs' =>
            rw [hxsat] at hs
            obtain ⟨rfl, -⟩ := List.cons.inj hs
            exact h s f' fs' hxsat hf g hg
      have hentries : (∀ e', .obj e' ∈ xs ++ [.obj e] → Steady e') ↔
          (∀ e', .obj e' ∈ xs → Steady e') ∧ Steady e := by
        simp [or_imp, forall_and]
      rw [hlog', hlog, hcond, steadyList_snoc, hentries]
      tauto

end Entries

section Items

variable {data : Dict Str Json} {occ : List Found} {final : Flat} {n : ℕ}

/-- What is found at the places of a list of them. -/
def foundIn (ls : List (List Str × Json)) : List Found :=
  ls.flatMap fun l => (found l.2).map (Found.below l.1)

/-- A value that is not to be entered. -/
def Plain (v : Json) : Prop := ∀ xs, v = .list xs → xs.any isDict = false

theorem found_plain {v : Json} (h : Plain v) (hv : isDict v = false) : found v = [⟨[], false, v⟩] := by
  cases v with
  | obj fields => cases hv
  | list xs => rw [found, h xs rfl, if_neg (by simp)]
  | _ => rfl

theorem flattenItem_plain {deep : Json → Except FlattenError Flat} {item : Str × Json}
    (h : Plain item.2) : flattenItem deep final item =
      .ok (final.1.set item.1 ⟨item.2, true⟩, final.2) := by
  obtain ⟨k, v⟩ := item
  cases v with
  | list xs => simp [flattenItem, h xs rfl]
  | _ => rfl

/-- What a place adds to the condition that nothing is added to lists of the document. -/
def SteadyAt (v : Json) : Prop := ∀ xs, v = .list xs → xs.any isDict = true →
  SteadyList xs ∧ ∀ e, .obj e ∈ xs → Steady e

theorem steady_iff : Steady data ↔ ∀ l ∈ places data, SteadyAt l.2 := by
  constructor
  · intro h l hl xs hxs hany
    refine ⟨h data .self l hl xs hxs hany, fun e he => ?_⟩
    intro fields hwithin
    exact h fields (within_entry hl hxs he hwithin)
  · intro h fields hwithin l hl xs hxs hany
    cases hwithin.cases_entry with
    | inl heq =>
      subst heq
      exact (h l hl xs hxs hany).1
    | inr hentry =>
      obtain ⟨l', xs', e, hl', hxs', he, hwithin⟩ := hentry
      have hany' : xs'.any isDict = true := List.any_eq_true.mpr ⟨_, he, rfl⟩
      exact (h l' hl' xs' hxs' hany').2 e he fields hwithin l hl xs hxs hany

theorem foundIn_places (data : Dict Str Json) : foundIn (places data) = found (.obj data) := by
  rw [found_eq, placesOf_obj, foundIn]

/-- One value of the flat document. -/
theorem flattenItem_ok {deep : Json → Except FlattenError Flat} {l : List Str × Json}
    (hp : l.1 ≠ []) (hl : isDict l.2 = false)
    (hdeep : ∀ xs, l.2 = .list xs → xs.any isDict = true →
      ∀ x ∈ xs, ∃ e flat, x = .obj e ∧ deep x = .ok flat ∧ Deep e flat)
    (hholds : Holds occ final)
    (hocc : ∀ f ∈ found l.2, foundAt occ (f.below l.1).text = []) :
    ∃ final', flattenItem deep final (join ['.'] l.1, l.2) = .ok final' ∧
      Holds (occ ++ (found l.2).map (Found.below l.1)) final' ∧
      (Unextended final'.2 ↔ Unextended final.2 ∧ SteadyAt l.2) := by
  by_cases hplain : Plain l.2
  · have hfound := found_plain hplain hl
    have htext : (Found.below l.1 ⟨[], false, l.2⟩).text = join ['.'] l.1 := by
      simp [Found.below, Found.text]
    refine ⟨_, flattenItem_plain hplain, ⟨Dict.nodup_keys_set hholds.nodup _ _, fun t => ?_⟩, ?_⟩
    · have hnil := hocc ⟨[], false, l.2⟩ (by simp [hfound])
      rw [htext] at hnil
      rw [Dict.get?_set, foundAt_append, hfound]
      by_cases ht : t = join ['.'] l.1
      · have hself : foundAt [Found.below l.1 ⟨[], false, l.2⟩] t = [Found.below l.1 ⟨[], false, l.2⟩] :=
          List.filter_eq_self.mpr fun f hf => by
            rw [List.mem_singleton.mp hf, htext, ht, decide_eq_true_eq]
        rw [if_pos ht, List.map_singleton, hself, ht, hnil]
        rfl
      · have hother : foundAt [Found.below l.1 ⟨[], false, l.2⟩] t = [] := by
          rw [foundAt_eq_nil]
          intro f hf
          rw [List.mem_singleton.mp hf, htext]
          exact Ne.symm ht
        rw [if_neg ht, List.map_singleton, hother, List.append_nil]
        exact hholds.get t
    · have hsteady : SteadyAt l.2 := by
        intro xs hxs hany
        rw [hplain xs hxs] at hany
        cases hany
      simp [hsteady]
  · obtain ⟨xs, hxs, hany⟩ : ∃ xs, l.2 = .list xs ∧ xs.any isDict = true := by
      simpa [Plain] using hplain
    have hfound : found l.2 = (foundList xs).map Found.crossing := by
      rw [hxs, found, if_pos hany]
    have hentered : entered l.1 (foundList xs) = (found l.2).map (Found.below l.1) := by
      rw [hfound, List.map_map]
      rfl
    have hpath : ∀ f ∈ foundList xs, f.path ≠ [] := by
      intro f hf
      obtain ⟨x, hx, hf⟩ := mem_foundList.mp hf
      obtain ⟨e, -, rfl, -⟩ := hdeep xs hxs hany x hx
      exact found_path_ne_nil hf
    obtain ⟨final', hfold, hfinal, hlog⟩ := absorb_entries hp (hdeep xs hxs hany) hholds
      fun f hf => by
        have hnil := hocc f.crossing (by rw [hfound]; exact List.mem_map_of_mem hf)
        have htext : (f.crossing.below l.1).text = join ['.'] l.1 ++ '.' :: f.text :=
          join_append hp (hpath f hf)
        rwa [htext] at hnil
    refine ⟨final', ?_, hentered ▸ hfinal, ?_⟩
    · rw [flattenItem]
      simp only [hxs, hany, if_true]
      exact hfold
    · rw [hlog]
      refine and_congr_right fun _ => ?_
      constructor
      · intro h xs' hxs' _
        obtain rfl := Json.list.inj (hxs.symm.trans hxs')
        exact h
      · intro h
        exact h xs hxs hany

/-- The values of the flat document. -/
theorem flattenItems_ok {deep : Json → Except FlattenError Flat} {ls : List (List Str × Json)}
    (hp : ∀ l ∈ ls, l.1 ≠ []) (hl : ∀ l ∈ ls, isDict l.2 = false)
    (hdeep : ∀ l ∈ ls, ∀ xs, l.2 = .list xs → xs.any isDict = true →
      ∀ x ∈ xs, ∃ e flat, x = .obj e ∧ deep x = .ok flat ∧ Deep e flat)
    (hapart : ls.Pairwise fun l l' =>
      ∀ f ∈ found l.2, ∀ f' ∈ found l'.2, (f.below l.1).text ≠ (f'.below l'.1).text) :
    ∃ final, (ls.map fun l => (join ['.'] l.1, l.2)).foldlM (flattenItem deep) ([], []) =
        .ok final ∧ Holds (foundIn ls) final ∧
      (Unextended final.2 ↔ ∀ l ∈ ls, SteadyAt l.2) := by
  induction ls using List.reverseRecOn with
  | nil =>
    refine ⟨([], []), rfl, ⟨List.nodup_nil, fun t => rfl⟩, ?_⟩
    simp [Unextended]
  | append_singleton ls l ih =>
    obtain ⟨hbefore, -, hlast⟩ := List.pairwise_append.mp hapart
    obtain ⟨mid, hmid, hholds, hlog⟩ := ih (fun l hl => hp l (by simp [hl]))
      (fun l' hl' => hl l' (by simp [hl'])) (fun l hl => hdeep l (by simp [hl])) hbefore
    obtain ⟨final, hitem, hfinal, hlog'⟩ := flattenItem_ok (hp l (by simp)) (hl l (by simp))
      (hdeep l (by simp)) hholds fun f hf => by
        rw [foundAt_eq_nil]
        intro g hg
        obtain ⟨l', hl', hg⟩ := List.mem_flatMap.mp hg
        obtain ⟨g', hg', rfl⟩ := List.mem_map.mp hg
        exact hlast l' hl' l (by simp) g' hg' f hf
    refine ⟨final, ?_, ?_, ?_⟩
    · rw [List.map_append, List.foldlM_append, hmid]
      exact (bind_pure _).trans hitem
    · simpa [foundIn] using hfinal
    · rw [hlog', hlog]
      simp [or_imp, forall_and]

theorem height_le_of_mem {xs : List Json} {x : Json} (h : x ∈ xs) : height x ≤ heightList xs := by
  induction xs with
  | nil => contradiction
  | cons y xs ih =>
    rw [heightList]
    cases List.mem_cons.mp h with
    | inl heq => exact heq ▸ le_max_left _ _
    | inr h => exact (ih h).trans (le_max_right _ _)

theorem height_le_of_field {fields : List (Str × Json)} {e : Str × Json} (h : e ∈ fields) :
    height e.2 ≤ heightFields fields := by
  induction fields with
  | nil => contradiction
  | cons e' fields ih =>
    obtain ⟨k, v⟩ := e'
    rw [heightFields]
    cases List.mem_cons.mp h with
    | inl heq => exact heq ▸ le_max_left _ _
    | inr h => exact (ih h).trans (le_max_right _ _)

theorem height_placesOf {j : Json} {l : List Str × Json} (h : l ∈ placesOf j) :
    height l.2 ≤ height j := by
  induction j using objInduction generalizing l with
  | leaf j hj =>
    rw [placesOf_of_not_obj hj] at h
    rw [List.mem_singleton.mp h]
  | obj fields ih =>
    rw [placesOf_obj, places, List.mem_filter] at h
    obtain ⟨hmem, hdict⟩ := h
    obtain ⟨k, v, q, hkv, -, hq⟩ := mem_leavesFields.mp hmem
    have hv := ih _ hkv (l := (q, l.2)) (List.mem_filter.mpr ⟨hq, hdict⟩)
    exact hv.trans (height_le_of_field hkv)

theorem isDict_places {l : List Str × Json} (h : l ∈ places data) : isDict l.2 = false := by
  have hdict := (List.mem_filter.mp h).2
  simpa using hdict

theorem exists_obj {v : Json} (h : isDict v = true) : ∃ e, v = .obj e := by
  cases v with
  | obj e => exact ⟨e, rfl⟩
  | _ => cases h

theorem flatten_legible (h : Legible data) :
    flatten data [] [] = (places data).map fun l => (join ['.'] l.1, l.2) := by
  have hspelled : spelled [] (places data) = (places data).map fun l => (join ['.'] l.1, l.2) :=
    List.map_congr_left fun l hl => by rw [h.spelled l hl]
  have hkeys : Dict.keys (spelled [] (places data)) =
      (places data).map fun l => join ['.'] l.1 := by
    rw [hspelled, Dict.keys, List.map_map]
    rfl
  rw [flatten_eq (by rw [hkeys]; exact h.nodup), hspelled]

/-- A value that no list is crossed for is the only one at its dotted path. -/
theorem lone_found (h : Legible data) (t : Str) : Lone (foundAt (found (.obj data)) t) := by
  intro f hf hcrossed
  obtain ⟨hmem, rfl⟩ := mem_foundAt.mp hf
  rw [← foundIn_places] at hmem ⊢
  have hapart := h.apart
  have hdicts : ∀ l ∈ places data, isDict l.2 = false := fun l => isDict_places
  generalize places data = ls at hmem hapart hdicts
  obtain ⟨l, hl, hg⟩ := List.mem_flatMap.mp hmem
  obtain ⟨g, hg', rfl⟩ := List.mem_map.mp hg
  obtain ⟨before, after, rfl⟩ := List.append_of_mem hl
  obtain ⟨-, hafter, hbefore⟩ := List.pairwise_append.mp hapart
  obtain ⟨hafter, -⟩ := List.pairwise_cons.mp hafter
  have hplain : Plain l.2 := by
    intro xs hxs
    cases hany : xs.any isDict with
    | false => rfl
    | true =>
      rw [hxs, found, if_pos hany] at hg'
      obtain ⟨g', -, rfl⟩ := List.mem_map.mp hg'
      cases hcrossed
  have hfound := found_plain hplain (hdicts l hl)
  have hbefore : foundAt (foundIn before) (g.below l.1).text = [] := by
    rw [foundAt_eq_nil]
    intro f hf
    obtain ⟨l', hl', hf⟩ := List.mem_flatMap.mp hf
    obtain ⟨f', hf', rfl⟩ := List.mem_map.mp hf
    exact hbefore l' hl' l (by simp) f' hf' g hg'
  have hafter : foundAt (foundIn after) (g.below l.1).text = [] := by
    rw [foundAt_eq_nil]
    intro f hf
    obtain ⟨l', hl', hf⟩ := List.mem_flatMap.mp hf
    obtain ⟨f', hf', rfl⟩ := List.mem_map.mp hf
    exact (hafter l' hl' g hg' f' hf').symm
  have hself : foundAt ((found l.2).map (Found.below l.1)) (g.below l.1).text = [g.below l.1] := by
    rw [hfound] at hg' ⊢
    rw [List.mem_singleton.mp hg']
    simp [foundAt]
  have hsplit : foundIn (before ++ l :: after) =
      foundIn before ++ ((found l.2).map (Found.below l.1) ++ foundIn after) := by
    simp [foundIn]
  rw [hsplit, foundAt_append, foundAt_append, hbefore, hafter, hself]
  rfl

/-- Enough fuel flattens a document that is legible and has no mixed lists. -/
theorem flattenDeepFor_ok (hheight : height (.obj data) < n) (hlegible : Unambiguous data)
    (huniform : Uniform data) : ∃ flat, flattenDeepFor n (.obj data) = .ok flat ∧ Deep data flat := by
  induction n generalizing data with
  | zero => omega
  | succ n ih =>
    have hself := hlegible data .self
    obtain ⟨final, hfold, hholds, hlog⟩ := @flattenItems_ok (flattenDeepFor n) (places data)
        (fun l => places_path_ne_nil) (fun l => isDict_places) (fun l hl xs hxs hany x hx => by
        obtain ⟨e, rfl⟩ := exists_obj
          (List.all_eq_true.mp (huniform data .self l hl xs hxs hany) x hx)
        have hplace := height_placesOf (j := .obj data) (by rwa [placesOf_obj])
        have hentry := height_le_of_mem hx
        have hlist : height (.list xs) = heightList xs + 1 := by rw [height]
        rw [hxs, hlist] at hplace
        obtain ⟨flat, hok, hdeep⟩ := @ih e (by omega)
          (fun r hr => hlegible r (within_entry hl hxs hx hr))
          (fun r hr => huniform r (within_entry hl hxs hx hr))
        exact ⟨e, flat, rfl, hok, hdeep⟩) hself.apart
    refine ⟨final, ?_, ?_, lone_found hself, ?_⟩
    · rw [flattenDeepFor, flatten_legible hself]
      exact hfold
    · rw [← foundIn_places]
      exact hholds
    · rw [hlog, steady_iff]

theorem foldlM_ok_mem {α β ε : Type} {f : β → α → Except ε β} {xs : List α} {b b' : β}
    (h : xs.foldlM f b = .ok b') {x : α} (hx : x ∈ xs) : ∃ c c', f c x = .ok c' := by
  induction xs generalizing b with
  | nil => contradiction
  | cons y xs ih =>
    rw [List.foldlM_cons] at h
    obtain ⟨c, hc, h⟩ := bind_eq_ok.mp h
    cases List.mem_cons.mp hx with
    | inl heq => exact ⟨b, c, heq ▸ hc⟩
    | inr hx => exact ih h hx

/-- A mixed list is not flattened. -/
theorem uniform_of_ok {flat : Flat} (hlegible : Unambiguous data)
    (h : flattenDeepFor n (.obj data) = .ok flat) : Uniform data := by
  induction n generalizing data flat with
  | zero => cases h
  | succ n ih =>
    rw [flattenDeepFor, flatten_legible (hlegible data .self)] at h
    have hentry : ∀ l ∈ places data, ∀ xs, l.2 = .list xs → xs.any isDict = true → ∀ x ∈ xs,
        ∃ flat, flattenDeepFor n x = .ok flat := by
      intro l hl xs hxs hany x hx
      obtain ⟨c, c', hitem⟩ := foldlM_ok_mem h (List.mem_map_of_mem hl)
      rw [flattenItem] at hitem
      simp only [hxs, hany, if_true] at hitem
      obtain ⟨c, c', hx⟩ := foldlM_ok_mem hitem hx
      obtain ⟨flat, hflat, -⟩ := bind_eq_ok.mp hx
      exact ⟨flat, hflat⟩
    intro fields hwithin l hl xs hxs hany
    cases hwithin.cases_entry with
    | inl heq =>
      subst heq
      refine List.all_eq_true.mpr fun x hx => ?_
      obtain ⟨flat, hflat⟩ := hentry l hl xs hxs hany x hx
      cases n with
      | zero => cases hflat
      | succ n =>
        cases x with
        | obj e => rfl
        | _ => cases hflat
    | inr hinner =>
      obtain ⟨l', xs', e, hl', hxs', he, hwithin⟩ := hinner
      obtain ⟨flat, hflat⟩ := hentry l' hl' xs' hxs' (List.any_eq_true.mpr ⟨_, he, rfl⟩) _ he
      exact ih (fun r hr => hlegible r (within_entry hl' hxs' he hr)) hflat fields hwithin l hl xs
        hxs hany

/-- What a run that returns says about the document. -/
theorem uniform_and_steady_iff_of_ok {final : Dict Str Object} {extensions : List (Str × List Json)}
    (hlegible : Unambiguous data) (h : flattenDeep (.obj data) = .ok (final, extensions)) :
    Uniform data ∧ (Unextended extensions ↔ Steady data) := by
  have huniform := uniform_of_ok hlegible h
  obtain ⟨flat, hflat, hdeep⟩ := flattenDeepFor_ok (Nat.lt_succ_self _) hlegible huniform
  obtain rfl := Except.ok.inj (h.symm.trans hflat)
  exact ⟨huniform, hdeep.extended⟩

/-- What is held is what the document is to be flattened to. -/
theorem flattens_iff (hlegible : Unambiguous data) :
    Flattens data ↔ Uniform data ∧ Steady data := by
  constructor
  · intro h
    obtain ⟨final, extensions, hok, hext, -⟩ := h
    obtain ⟨huniform, hsteady⟩ := uniform_and_steady_iff_of_ok hlegible hok
    exact ⟨huniform, hsteady.mp hext⟩
  · intro h
    obtain ⟨huniform, hsteady⟩ := h
    obtain ⟨⟨final, log⟩, hflat, hholds, hlone, hext⟩ :=
      flattenDeepFor_ok (Nat.lt_succ_self _) hlegible huniform
    refine ⟨final, log, hflat, hext.mpr hsteady, hholds.nodup, fun t => ?_, fun f hf => ?_⟩
    · rw [Dict.mem_keys_iff, hholds.get]
      constructor
      · intro hsome
        obtain ⟨o, ho⟩ := hsome
        cases hat : foundAt (found (.obj data)) t with
        | nil =>
          rw [hat] at ho
          cases ho
        | cons f fs =>
          have hf : f ∈ foundAt (found (.obj data)) t := by simp [hat]
          exact ⟨f, mem_foundAt.mp hf⟩
      · intro hex
        obtain ⟨f, hf⟩ := hex
        cases hat : foundAt (found (.obj data)) t with
        | nil => exact absurd (mem_foundAt.mpr hf) (by simp [hat])
        | cons f fs => exact ⟨_, rfl⟩
    · have hmem := mem_foundAt.mpr ⟨hf, rfl⟩
      rw [hholds.get]
      cases hcrossed : f.crossed with
      | false =>
        rw [hlone _ f hmem hcrossed]
        simp [held, hcrossed]
      | true =>
        cases hat : foundAt (found (.obj data)) f.text with
        | nil =>
          rw [hat] at hmem
          contradiction
        | cons g gs =>
          have hg : g.crossed = true := by
            cases hg : g.crossed with
            | true => rfl
            | false =>
              have hgs := hlone f.text g (by simp [hat]) hg
              rw [hgs] at hmem
              rw [List.mem_singleton.mp hmem, hg] at hcrossed
              cases hcrossed
          simp [held, hg]

end Items

section Named

variable {data fields : Dict Str Json} {pre : Str} {p q : List Str}

theorem spell_of_ne_nil (hpre : pre ≠ []) (hp : p ≠ []) :
    spell pre p = pre ++ '.' :: join ['.'] p := by
  induction p generalizing pre with
  | nil => contradiction
  | cons k p ih =>
    have hstep : spell pre (k :: p) = spell (pre ++ '.' :: k) p := by
      rw [spell, List.foldl_cons, Datastore.curPath, if_neg hpre]
      rfl
    rw [hstep]
    cases p with
    | nil =>
      rw [join_singleton]
      rfl
    | cons k' p =>
      rw [ih (by simp) (by simp), join_cons_cons]
      simp

theorem spell_named (hp : p ≠ []) (h : ∀ k ∈ p, k ≠ []) : spell [] p = join ['.'] p := by
  obtain ⟨k, p, rfl⟩ := List.exists_cons_of_ne_nil hp
  have hstep : spell [] (k :: p) = spell k p := rfl
  rw [hstep]
  cases p with
  | nil =>
    rw [join_singleton]
    rfl
  | cons k' p =>
    rw [spell_of_ne_nil (h k (by simp)) (by simp), join_cons_cons]
    simp

/-- A dotted path begins with the keys of its path. -/
theorem splitOn_join_append (hp : p ≠ []) (h : ∀ k ∈ p, '.' ∉ k) (q : List Str) :
    p <+: (join ['.'] (p ++ q)).splitOn '.' := by
  by_cases hq : q = []
  · rw [hq, List.append_nil, splitOn_join h hp]
  · rw [join_append hp hq, List.splitOn_append_cons_self, splitOn_join h hp]
    exact List.prefix_append _ _

theorem keyed_within (h : Keyed (.obj data)) (hwithin : Within data fields) :
    Keyed (.obj fields) := by
  induction hwithin with
  | self => exact h
  | entry _ hl hxs he ih =>
    have hmem := List.mem_of_mem_filter hl
    have hleaf := ih.of_mem_leaves (mem_leaves_of_fields hmem)
    rw [hxs] at hleaf
    exact hleaf.of_mem he

theorem named_obj : named (.obj fields) = true ↔
    ∀ e ∈ fields, (e.1 ≠ [] ∧ '.' ∉ e.1) ∧ named e.2 = true := by
  rw [named]
  induction fields with
  | nil => simp [namedFields]
  | cons e fields ih =>
    obtain ⟨k, v⟩ := e
    simp [namedFields, ih, and_assoc]

theorem named_list {xs : List Json} : named (.list xs) = true ↔ ∀ x ∈ xs, named x = true := by
  rw [named]
  induction xs with
  | nil => simp [namedList]
  | cons x xs ih => simp [namedList, ih]

theorem named_leaves {j u : Json} (h : named j = true) (hmem : (p, u) ∈ leaves keyed j) :
    (∀ k ∈ p, k ≠ [] ∧ '.' ∉ k) ∧ named u = true := by
  induction j using objInduction generalizing p with
  | leaf j hj =>
    rw [leaves_of_not_obj hj] at hmem
    obtain ⟨rfl, rfl⟩ := Prod.mk.inj (List.mem_singleton.mp hmem)
    exact ⟨by simp, h⟩
  | obj fields ih =>
    cases p with
    | nil =>
      rw [mem_leaves_nil (by simp)] at hmem
      rw [hmem.2]
      exact ⟨by simp, rfl⟩
    | cons k p =>
      obtain ⟨k', v, hkv, hk, hp⟩ := (mem_leaves_cons fun e _ => ⟨e.1, rfl⟩).mp hmem
      obtain rfl := List.singleton_inj.mp hk
      obtain ⟨hname, hv⟩ := named_obj.mp h _ hkv
      obtain ⟨hnames, hu⟩ := ih _ hkv hv hp
      exact ⟨List.forall_mem_cons.mpr ⟨hname, hnames⟩, hu⟩

theorem named_places {l : List Str × Json} (h : named (.obj data) = true) (hl : l ∈ places data) :
    (∀ k ∈ l.1, k ≠ [] ∧ '.' ∉ k) ∧ named l.2 = true :=
  named_leaves h (mem_leaves_of_fields (List.mem_of_mem_filter hl))

theorem named_within (h : named (.obj data) = true) (hwithin : Within data fields) :
    named (.obj fields) = true := by
  induction hwithin with
  | self => exact h
  | entry _ hl hxs he ih =>
    have hlist := (named_places ih hl).2
    rw [hxs] at hlist
    exact named_list.mp hlist _ he

/-- Where the keys are names the dotted paths tell the paths apart. -/
theorem unambiguous_of_named (hkeyed : Keyed (.obj data)) (hnamed : named (.obj data) = true) :
    Unambiguous data := by
  intro fields hwithin
  have hname := fun l hl => (named_places (named_within hnamed hwithin) (l := l) hl).1
  have hpaths : (places fields).Pairwise fun l l' => Apart l.1 l'.1 := by
    have hleaves := List.pairwise_map.mp (pairwise_leaves (keyed_within hkeyed hwithin))
    by_cases hfields : fields = []
    · simp [hfields, places, leavesFields]
    · rw [leaves_obj hfields] at hleaves
      exact hleaves.filter _
  have htexts : ∀ l ∈ places fields, ∀ l' ∈ places fields, Apart l.1 l'.1 → ∀ q q',
      join ['.'] (l.1 ++ q) ≠ join ['.'] (l'.1 ++ q') := by
    intro l hl l' hl' hapart q q' heq
    have hprefix := splitOn_join_append (places_path_ne_nil hl) (fun k hk => (hname l hl k hk).2) q
    have hprefix' :=
      splitOn_join_append (places_path_ne_nil hl') (fun k hk => (hname l' hl' k hk).2) q'
    rw [heq] at hprefix
    exact (List.prefix_or_prefix_of_prefix hprefix hprefix').elim hapart.1 hapart.2
  refine ⟨fun l hl => ?_, ?_, ?_⟩
  · exact spell_named (places_path_ne_nil hl) fun k hk => (hname l hl k hk).1
  · rw [List.Nodup, List.pairwise_map]
    refine hpaths.imp_of_mem fun hl hl' hapart => ?_
    simpa using htexts _ hl _ hl' hapart [] []
  · exact hpaths.imp_of_mem fun hl hl' hapart f _ f' _ => htexts _ hl _ hl' hapart f.path f'.path

/-- Where the dotted paths are not ambiguous, a document is flattened as it should be if no list is
mixed and no list of the document is added to. Where the keys are names, it is not otherwise. -/
theorem flatten_deep_iff (data : Dict Str Json) :
    (Unambiguous data → Uniform data → Steady data → Flattens data) ∧
    (Keyed (.obj data) → named (.obj data) = true →
      (Flattens data ↔ Uniform data ∧ Steady data)) := by
  constructor
  · intro hlegible huniform hsteady
    exact (flattens_iff hlegible).mpr ⟨huniform, hsteady⟩
  · intro hkeyed hnamed
    exact flattens_iff (unambiguous_of_named hkeyed hnamed)

/-- A list of maps, in which a list comes after a value, and a list of maps in it. -/
def nestedLists : Dict Str Json :=
  [("l".toList, .list [
      .obj [("a".toList, .num 5),
        ("m".toList, .list [.obj [("c".toList, .num 1)], .obj [("c".toList, .num 2)]])],
      .obj [("a".toList, .list [.num 6, .num 7])]]),
    ("t".toList, .list [.num 8])]

theorem keyed_nestedLists : Keyed (.obj nestedLists) := by
  have hc (n : ℚ) : Keyed (.obj [("c".toList, .num n)]) :=
    keyed_obj (List.nodup_singleton _) (List.forall_mem_singleton.mpr (keyed_num n))
  have hm : Keyed (.list [.obj [("c".toList, .num 1)], .obj [("c".toList, .num 2)]]) :=
    keyed_list (List.forall_mem_cons.mpr ⟨hc 1, List.forall_mem_singleton.mpr (hc 2)⟩)
  have ha : Keyed (.list [.num 6, .num 7]) :=
    keyed_list (List.forall_mem_cons.mpr ⟨keyed_num 6, List.forall_mem_singleton.mpr (keyed_num 7)⟩)
  have hfirst : Keyed (.obj [("a".toList, .num 5),
      ("m".toList, .list [.obj [("c".toList, .num 1)], .obj [("c".toList, .num 2)]])]) :=
    keyed_obj (by decide)
      (List.forall_mem_cons.mpr ⟨keyed_num 5, List.forall_mem_singleton.mpr hm⟩)
  have hsecond : Keyed (.obj [("a".toList, .list [.num 6, .num 7])]) :=
    keyed_obj (by decide) (List.forall_mem_singleton.mpr ha)
  have hl := keyed_list (List.forall_mem_cons.mpr
    ⟨hfirst, List.forall_mem_singleton.mpr hsecond⟩)
  have ht := keyed_list (List.forall_mem_singleton.mpr (keyed_num 8))
  exact keyed_obj (by decide)
    (List.forall_mem_cons.mpr ⟨hl, List.forall_mem_singleton.mpr ht⟩)

theorem flatten_deep_nested : Flattens nestedLists := by
  have hrun : ∃ final, flattenDeep (.obj nestedLists) = .ok (final, []) := ⟨_, rfl⟩
  obtain ⟨final, hrun⟩ := hrun
  obtain ⟨huniform, hsteady⟩ :=
    uniform_and_steady_iff_of_ok (unambiguous_of_named keyed_nestedLists rfl) hrun
  refine ((flatten_deep_iff nestedLists).2 keyed_nestedLists rfl).mpr ⟨huniform, hsteady.mp ?_⟩
  exact fun e he => absurd he List.not_mem_nil

/-- An entry with an empty list, and one with a value, at one path. -/
def entries : Dict Str Json :=
  [("l".toList, .list [.obj [("a".toList, .list [])], .obj [("a".toList, .num 5)]])]

theorem keyed_entries : Keyed (.obj entries) := by
  have hfirst : Keyed (.obj [("a".toList, .list [])]) :=
    keyed_obj (by decide) fun e he => by
      obtain rfl := List.mem_singleton.mp he
      exact keyed_list fun x hx => by contradiction
  have hsecond : Keyed (.obj [("a".toList, .num 5)]) :=
    keyed_obj (by decide) fun e he => by
      obtain rfl := List.mem_singleton.mp he
      exact keyed_num 5
  refine keyed_obj (by decide) fun e he => ?_
  obtain rfl := List.mem_singleton.mp he
  refine keyed_list fun x hx => ?_
  cases List.mem_cons.mp hx with
  | inl heq => exact heq ▸ hfirst
  | inr hx => exact List.mem_singleton.mp hx ▸ hsecond

/-- The empty list of the first entry is added to. -/
theorem entries_not_flattened : Keyed (.obj entries) ∧ named (.obj entries) = true ∧
    ¬ Flattens entries ∧
    flattenDeep (.obj entries) =
      .ok ([("l.a".toList, ⟨.list [.num 5], true⟩)], [("l.a".toList, [.num 5])]) := by
  have hrun : flattenDeep (.obj entries) =
      .ok ([("l.a".toList, ⟨.list [.num 5], true⟩)], [("l.a".toList, [.num 5])]) := rfl
  refine ⟨keyed_entries, rfl, fun h => ?_, hrun⟩
  obtain ⟨final, extensions, hok, hext, -⟩ := h
  obtain ⟨-, rfl⟩ := Prod.mk.inj (Except.ok.inj (hrun.symm.trans hok))
  exact List.cons_ne_nil _ _ (hext _ List.mem_cons_self)

end Named

end Howler.Documents
