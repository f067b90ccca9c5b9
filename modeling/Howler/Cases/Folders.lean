import Howler.Cases.Renaming

namespace Howler.Cases

open Python Systems.Prog

/-- The folder that is created for a part of a path. -/
def newFolder (id part : Str) (parent : Option Str) : CaseItem where
  id := id
  parent := optionalText parent
  name := some part
  type := .folder
  value := part

/-- The items with the folders of a path, the last of these, and the next random id. -/
structure PathEnd where
  items : List CaseItem
  parent : Option Str
  next : Nat

/-- What the loop of `get_parent_from_path` does with the random ids from the `n`-th on. -/
def createPath (uids : Nat → Str) : Nat → List Str → List CaseItem → Option Str → PathEnd
  | n, [], items, parent => ⟨items, parent, n⟩
  | n, part :: parts, items, parent =>
    match findFolder items part parent with
    | some folder => createPath uids n parts items (some folder.id)
    | none => createPath uids (n + 1) parts (items ++ [newFolder (uids n) part parent])
        (some (uids n))

/-- Where a path leads, if all its folders exist. -/
def findPath (items : List CaseItem) : List Str → Option Str → Option (Option Str)
  | [], parent => some parent
  | part :: parts, parent =>
    (findFolder items part parent).bind fun folder => findPath items parts (some folder.id)

/-- The store when the `n`-th random id is next. -/
def World.atUid (w : World) (n : Nat) : World := { w with nextUid := n }

@[simp] theorem World.atUid_cases (w : World) (n : Nat) : (w.atUid n).cases = w.cases := rfl

@[simp] theorem World.atUid_records (w : World) (n : Nat) : (w.atUid n).records = w.records := rfl

@[simp] theorem World.atUid_uids (w : World) (n : Nat) : (w.atUid n).uids = w.uids := rfl

@[simp] theorem World.atUid_nextUid (w : World) (n : Nat) : (w.atUid n).nextUid = n := rfl

@[simp] theorem World.atUid_atUid (w : World) (m n : Nat) : (w.atUid m).atUid n = w.atUid n := rfl

section Paths

variable {items : List CaseItem} {uids : Nat → Str} {n : Nat} {parent : Option Str}

theorem run_newFolder (es : Elastic) (w : World) {part : Str} (hpart : part ≠ [])
    (parent : Option Str) :
    (CaseItem.new { type := .folder, name := some part, parent := parent, value := some [] }).run
      (handle es) w =
        (.ok (newFolder (w.uids w.nextUid) part parent), w.atUid (w.nextUid + 1)) := by
  rw [CaseItem.new, if_neg (by simp)]
  rw [run_bind_ok (show (itemId none).run (handle es) w = _ from run_randomId es w)]
  cases part with
  | nil => contradiction
  | cons a part => rfl

theorem run_walkPath (es : Elastic) (w : World) (c : Case) {parts : List Str}
    (hparts : ∀ p ∈ parts, p ≠ []) (parent : Option Str) :
    (walkPath true parts c parent).run (handle es) w =
      (.ok (some ({ c with items := (createPath w.uids w.nextUid parts c.items parent).items },
          (createPath w.uids w.nextUid parts c.items parent).parent)),
        w.atUid (createPath w.uids w.nextUid parts c.items parent).next) := by
  induction parts generalizing w c parent with
  | nil => rfl
  | cons part parts ih =>
    have hrest : ∀ p ∈ parts, p ≠ [] := fun p hp => hparts p (List.mem_cons_of_mem _ hp)
    rw [walkPath, createPath]
    cases hf : findFolder c.items part parent with
    | some folder => exact ih w c hrest (some folder.id)
    | none =>
      have hnew := run_newFolder es w (hparts part List.mem_cons_self) parent
      exact (run_bind_ok hnew _).trans (ih _ _ hrest _)

theorem pathParts_ne_nil (path : Str) : ∀ p ∈ pathParts path, p ≠ [] := by
  intro p hp
  simpa using (List.mem_filter.mp hp).2

theorem Known.find (h : Known items parent) :
    (items.find? fun item => some item.id = parent).map (·.id) = parent := by
  cases parent with
  | none => simp
  | some p =>
    obtain ⟨i, hi, hip⟩ := h p rfl
    cases hf : items.find? fun item => some item.id = some p with
    | none =>
      have hne := List.find?_eq_none.mp hf i hi
      simp [hip] at hne
    | some j =>
      have hj := List.find?_some hf
      simpa using hj

theorem known_none : Known items none := by
  intro p hp
  contradiction

theorem known_of_findFolder {part : Str} {folder : CaseItem}
    (h : findFolder items part parent = some folder) : Known items (some folder.id) := by
  intro p hp
  exact ⟨folder, (findFolder_some h).1, Option.some.inj hp⟩

theorem known_new (i : CaseItem) : Known (items ++ [i]) (some i.id) := by
  intro p hp
  exact ⟨i, by simp, Option.some.inj hp⟩

theorem createPath_known (h : Known items parent) (parts : List Str) :
    Known (createPath uids n parts items parent).items
      (createPath uids n parts items parent).parent := by
  induction parts generalizing n items parent with
  | nil => exact h
  | cons part parts ih =>
    rw [createPath]
    cases hf : findFolder items part parent with
    | some folder => exact ih (known_of_findFolder hf)
    | none => exact ih (known_new (newFolder (uids n) part parent))

/-- Where the path exists, nothing is created. -/
theorem createPath_of_findPath {parts : List Str} {p : Option Str}
    (h : findPath items parts parent = some p) :
    createPath uids n parts items parent = ⟨items, p, n⟩ := by
  induction parts generalizing parent with
  | nil => rw [createPath, Option.some.inj h]
  | cons part parts ih =>
    obtain ⟨folder, hf, h⟩ := Option.bind_eq_some_iff.mp h
    rw [createPath, hf]
    exact ih h

/-- Only folders are added. -/
theorem createPath_append (parts : List Str) :
    ∃ new, (createPath uids n parts items parent).items = items ++ new ∧
      ∀ i ∈ new, i.type = .folder := by
  induction parts generalizing n items parent with
  | nil => exact ⟨[], by simp [createPath], by simp⟩
  | cons part parts ih =>
    rw [createPath]
    cases findFolder items part parent with
    | some folder => exact ih
    | none =>
      obtain ⟨new, hnew, ht⟩ := @ih (items ++ [newFolder (uids n) part parent]) (n + 1)
        (some (uids n))
      refine ⟨newFolder (uids n) part parent :: new, by simp [hnew], fun i hi => ?_⟩
      cases List.mem_cons.mp hi with
      | inl hi => exact hi ▸ rfl
      | inr hi => exact ht i hi

/-- The random ids from the `n`-th on are not used in the items. -/
def UnusedFrom (uids : Nat → Str) (n : Nat) (items : List CaseItem) : Prop :=
  ∀ m, n ≤ m → Unused items (uids m)

theorem UnusedFrom.mono {m : Nat} (h : UnusedFrom uids n items) (hm : n ≤ m) :
    UnusedFrom uids m items :=
  fun k hk => h k (hm.trans hk)

theorem Known.ne_uid (h : Known items parent) (hu : UnusedFrom uids n items) {m : Nat}
    (hm : n ≤ m) : parent ≠ some (uids m) := by
  intro hp
  obtain ⟨i, hi, hid⟩ := h _ hp
  exact (hu m hm).ids i hi hid

/-- An item with the next random id uses just that one up. -/
theorem UnusedFrom.append (h : UnusedFrom uids n items) (huids : Function.Injective uids)
    {i : CaseItem} (hid : i.id = uids n) (hp : Known items parent)
    (hip : i.parent = optionalText parent) : UnusedFrom uids (n + 1) (items ++ [i]) := by
  intro m hm
  have hm' : n ≤ m := Nat.le_of_succ_le hm
  refine ⟨(h m hm').nonempty, fun j hj => ?_, fun j hj => ?_⟩
  · cases List.mem_append.mp hj with
    | inl hj => exact (h m hm').ids j hj
    | inr hj =>
      obtain rfl := List.mem_singleton.mp hj
      rw [hid]
      intro heq
      have hnm := huids heq
      omega
  · cases List.mem_append.mp hj with
    | inl hj => exact (h m hm').parents j hj
    | inr hj =>
      obtain rfl := List.mem_singleton.mp hj
      rw [hip]
      exact fun heq => hp.ne_uid h hm' (optionalText_eq_some heq)

theorem createPath_unused (huids : Function.Injective uids) (h : UnusedFrom uids n items)
    (hp : Known items parent) (parts : List Str) :
    n ≤ (createPath uids n parts items parent).next ∧
      UnusedFrom uids (createPath uids n parts items parent).next
        (createPath uids n parts items parent).items := by
  induction parts generalizing n items parent with
  | nil => exact ⟨le_rfl, h⟩
  | cons part parts ih =>
    rw [createPath]
    cases hf : findFolder items part parent with
    | some folder => exact ih h (known_of_findFolder hf)
    | none =>
      have hnew := h.append (i := newFolder (uids n) part parent) huids rfl hp rfl
      obtain ⟨hle, hun⟩ := ih hnew (known_new _)
      exact ⟨Nat.le_of_succ_le hle, hun⟩

/-- A folder without items. -/
structure EmptyFolder (items : List CaseItem) (q : Str) : Prop where
  nonempty : q ≠ []
  empty : ∀ j ∈ items, j.parent ≠ some q
  folder : ∃ f, items.find? (·.id = q) = some f ∧ f.type = .folder

theorem EmptyFolder.optionalText {q : Str} (h : EmptyFolder items q) :
    Howler.optionalText (some q) = some q := by
  cases q with
  | nil => exact absurd rfl h.nonempty
  | cons a q => rfl

theorem emptyFolder_new (h : UnusedFrom uids n items) (hp : Known items parent) (part : Str) :
    EmptyFolder (items ++ [newFolder (uids n) part parent]) (uids n) := by
  have hun := h n le_rfl
  refine ⟨hun.nonempty, fun j hj => ?_, newFolder (uids n) part parent, ?_, rfl⟩
  · cases List.mem_append.mp hj with
    | inl hj => exact hun.parents j hj
    | inr hj =>
      obtain rfl := List.mem_singleton.mp hj
      exact fun heq => hp.ne_uid h le_rfl (optionalText_eq_some heq)
  · have hnone : items.find? (·.id = uids n) = none :=
      List.find?_eq_none.mpr fun j hj => by simpa using hun.ids j hj
    simp [List.find?_append, hnone, newFolder]

theorem createPath_of_empty (huids : Function.Injective uids) (h : UnusedFrom uids n items)
    {q : Str} (he : EmptyFolder items q) (parts : List Str) :
    items.length ≤ (createPath uids n parts items (some q)).items.length ∧
      ∃ q', (createPath uids n parts items (some q)).parent = some q' ∧
        EmptyFolder (createPath uids n parts items (some q)).items q' := by
  induction parts generalizing n items q with
  | nil => exact ⟨le_rfl, q, rfl, he⟩
  | cons part parts ih =>
    have hf : findFolder items part (some q) = none :=
      findFolder_none fun j hj hp => absurd hp (he.empty j hj)
    have hp : Known items (some q) := by
      obtain ⟨f, hf, -⟩ := he.folder
      intro p hp
      have hid : f.id = q := by simpa using List.find?_some hf
      exact ⟨f, List.mem_of_find?_eq_some hf, hid.trans (Option.some.inj hp)⟩
    rw [createPath, hf]
    have hnew := h.append (i := newFolder (uids n) part (some q)) huids rfl hp rfl
    obtain ⟨hle, hend⟩ := ih hnew (emptyFolder_new h hp part)
    rw [List.length_append] at hle
    exact ⟨Nat.le_of_add_right_le hle, hend⟩

/-- Where a part of the path is missing, folders are added, and the last of them is empty. -/
theorem createPath_of_missing (huids : Function.Injective uids) (h : UnusedFrom uids n items)
    (hp : Known items parent) {parts : List Str} (hmiss : findPath items parts parent = none) :
    items.length < (createPath uids n parts items parent).items.length ∧
      ∃ q, (createPath uids n parts items parent).parent = some q ∧
        EmptyFolder (createPath uids n parts items parent).items q := by
  induction parts generalizing parent with
  | nil => contradiction
  | cons part parts ih =>
    rw [findPath] at hmiss
    rw [createPath]
    cases hf : findFolder items part parent with
    | some folder =>
      rw [hf] at hmiss
      exact ih (known_of_findFolder hf) hmiss
    | none =>
      have hnew := h.append (i := newFolder (uids n) part parent) huids rfl hp rfl
      obtain ⟨hle, hend⟩ := createPath_of_empty huids hnew (emptyFolder_new h hp part) parts
      rw [List.length_append, List.length_singleton] at hle
      exact ⟨hle, hend⟩

/-- The same path creates corresponding folders among corresponding items. -/
theorem createPath_rename {f : Equiv.Perm Str} {items' : List CaseItem} {uids' : Nat → Str}
    {n' : Nat} (huids : Function.Injective uids) (huids' : Function.Injective uids')
    (hr : Renames f items items') (h : UnusedFrom uids n items) (h' : UnusedFrom uids' n' items')
    (hp : Known items parent) (parts : List Str) :
    ∃ f', Renames f' (createPath uids n parts items parent).items
        (createPath uids' n' parts items' (parent.map f)).items ∧
      (createPath uids' n' parts items' (parent.map f)).parent =
        (createPath uids n parts items parent).parent.map f' := by
  induction parts generalizing n n' items items' parent f with
  | nil => exact ⟨f, hr, rfl⟩
  | cons part parts ih =>
    rw [createPath, createPath, findFolder_rename hr]
    cases hf : findFolder items part parent with
    | some folder => exact ih hr h h' (known_of_findFolder hf)
    | none =>
      obtain ⟨f₁, hf₁, hr₁, hold⟩ := hr.extend (h n le_rfl) (h' n' le_rfl)
      have hparent : parent.map f = parent.map f₁ := (hp.map_eq hold).symm
      have hp' : Known items' (parent.map f) := by
        intro p hp'
        obtain ⟨q, hq, rfl⟩ := Option.map_eq_some_iff.mp hp'
        obtain ⟨i, hi, rfl⟩ := hp q hq
        exact ⟨i.rename f, hr.eq ▸ List.mem_map_of_mem hi, rfl⟩
      have hnew : newFolder (uids' n') part (parent.map f) =
          (newFolder (uids n) part parent).rename f₁ := by
        rw [hparent, newFolder, optionalText_map hr₁.empty]
        simp [CaseItem.rename, newFolder, hf₁]
      have hfold := h.append (i := newFolder (uids n) part parent) huids rfl hp rfl
      have hfold' := h'.append (i := newFolder (uids' n') part (parent.map f)) huids' rfl hp' rfl
      have hmap : some (uids' n') = (some (uids n)).map f₁ := by
        rw [Option.map_some, hf₁]
      dsimp only [Option.map_none]
      rw [hmap]
      exact ih (hr₁.append hnew) hfold hfold' (known_new (newFolder (uids n) part parent))

end Paths

end Howler.Cases
