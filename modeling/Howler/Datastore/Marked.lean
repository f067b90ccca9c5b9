import Howler.Classification.Filter
import Howler.Datastore.Coupling

namespace Howler.Datastore

open Python Structures

variable {C : ESCollection}

section Operations

/-- The operation is not on one of the marked fields. -/
def DocOperation.Passes (o : DocOperation) : Prop := ∀ k ∈ markKeys, (pathOf o.key).head? ≠ some k

/-- The operation sets one of the marked fields to what it is for the marking. -/
def DocOperation.Marks (c : Str) (parts : Dict Str Json) (o : DocOperation) : Prop :=
  o.op = .set ∧ ∃ e ∈ markFields c parts, pathOf o.key = [e.1] ∧ o.value = e.2

/-- The script is read as the operations, which leave the marked fields alone, or set them to those of
a marking: all of them, or those of a document with that marking. -/
def ScriptCareful (C : ESCollection) (ops : List (Str × Str × Json)) (stored : Json) : Prop :=
  (∀ op ∈ ops, isReadable op = true) ∧ ∀ ops', validateOperations C.fields ops = .ok ops' →
    directAll C.values ops' stored = true ∧
      ((∀ o ∈ ops', o.Passes) ∨
        ∃ c parts, accessParts C.rt C.engine C.isUc c = .ok parts ∧
          (∀ o ∈ ops', o.Passes ∨ o.Marks c parts) ∧
          (Json.getAt [classificationKey] stored = some (.str c) ∨
            ∀ k ∈ markKeys, ∃ o ∈ ops', pathOf o.key = [k]))

theorem exists_pathOf (key : Str) : ∃ k ks, pathOf key = k :: ks :=
  List.exists_cons_of_ne_nil (splitOn_ne_nil '.' key)

/-- An operation changes the field that its path begins with. -/
theorem apply_obj {V : Painless.Values} {o : DocOperation} {fields : Dict Str Json} {doc' : Json}
    (h : o.apply V (.obj fields) = some doc') :
    ∃ fields', doc' = .obj fields' ∧
      (∀ k, (pathOf o.key).head? ≠ some k → Json.entry fields' k = Json.entry fields k) ∧
      (o.op = .set → ∀ k, pathOf o.key = [k] → Json.entry fields' k = o.value) := by
  obtain ⟨k₀, ks, hpath⟩ := exists_pathOf o.key
  rw [DocOperation.apply, hpath, Json.modifyAt, Option.map_eq_some_iff] at h
  obtain ⟨v, hv, rfl⟩ := h
  refine ⟨_, rfl, ?_, ?_⟩
  · intro k hk
    have hne : k ≠ k₀ := by
      intro heq
      exact hk (by rw [hpath, heq]; rfl)
    rw [Json.entry, Dict.get?_set, if_neg hne]
    rfl
  · intro hset k hk
    rw [hpath] at hk
    obtain ⟨rfl, rfl⟩ := List.cons.inj hk
    rw [Json.modifyAt, hset] at hv
    rw [Json.entry, Dict.get?_set, if_pos rfl]
    exact (Option.some.inj hv).symm

theorem applyAll_passes {V : Painless.Values} {ops : List DocOperation} {fields : Dict Str Json}
    {doc' : Json} (h : applyAll V ops (.obj fields) = some doc') (hops : ∀ o ∈ ops, o.Passes) :
    ∃ fields', doc' = .obj fields' ∧
      ∀ k ∈ markKeys, Json.entry fields' k = Json.entry fields k := by
  induction ops generalizing fields with
  | nil =>
    obtain rfl := Option.some.inj h
    exact ⟨fields, rfl, fun _ _ => rfl⟩
  | cons o ops ih =>
    rw [applyAll, List.foldlM_cons, Option.bind_eq_bind, Option.bind_eq_some_iff] at h
    obtain ⟨mid, hmid, hrest⟩ := h
    obtain ⟨fields₁, rfl, hkeep, -⟩ := apply_obj hmid
    obtain ⟨fields', rfl, htail⟩ := ih hrest fun o ho => hops o (by simp [ho])
    refine ⟨fields', rfl, ?_⟩
    intro k hk
    rw [htail k hk, hkeep k (hops o (by simp) k hk)]

/-- Each operation leaves a marked field as it is or gives it its value. -/
theorem apply_marks {V : Painless.Values} {o : DocOperation} {fields : Dict Str Json} {doc' : Json}
    {c : Str} {parts : Dict Str Json} (hparts : accessParts C.rt C.engine C.isUc c = .ok parts)
    (h : o.apply V (.obj fields) = some doc') (ho : o.Passes ∨ o.Marks c parts) :
    ∃ fields', doc' = .obj fields' ∧ ∀ e ∈ markFields c parts,
      (Json.entry fields' e.1 = Json.entry fields e.1 ∨ Json.entry fields' e.1 = e.2) ∧
      (pathOf o.key = [e.1] → Json.entry fields' e.1 = e.2) := by
  obtain ⟨fields', rfl, hkeep, hset⟩ := apply_obj h
  refine ⟨fields', rfl, ?_⟩
  intro e he
  have hmem := mem_markKeys hparts he
  cases ho with
  | inl hpasses =>
    refine ⟨.inl (hkeep e.1 (hpasses e.1 hmem)), ?_⟩
    intro hpath
    exact absurd (by rw [hpath]; rfl) (hpasses e.1 hmem)
  | inr hmarks =>
    obtain ⟨hop, e', he', hpath, hvalue⟩ := hmarks
    by_cases heq : e.1 = e'.1
    · have hnodup : (Dict.keys (markFields c parts)).Nodup := by
        rw [keys_markFields hparts]
        exact nodup_markKeys
      have hsame : some e.2 = some e'.2 := by
        rw [← Dict.get?_of_mem hnodup he, ← Dict.get?_of_mem hnodup he', heq]
      have hvalue' : Json.entry fields' e.1 = e.2 := by
        rw [Option.some.inj hsame, ← hvalue]
        exact hset hop e.1 (by rw [hpath, heq])
      exact ⟨.inr hvalue', fun _ => hvalue'⟩
    · have hhead : (pathOf o.key).head? ≠ some e.1 := by
        rw [hpath]
        intro hsome
        exact heq (Option.some.inj hsome).symm
      refine ⟨.inl (hkeep e.1 hhead), ?_⟩
      intro hpath'
      exact absurd (by rw [hpath']; rfl) hhead

theorem applyAll_marks {V : Painless.Values} {ops : List DocOperation} {fields : Dict Str Json}
    {doc' : Json} {c : Str} {parts : Dict Str Json}
    (hparts : accessParts C.rt C.engine C.isUc c = .ok parts)
    (h : applyAll V ops (.obj fields) = some doc') (hops : ∀ o ∈ ops, o.Passes ∨ o.Marks c parts) :
    ∃ fields', doc' = .obj fields' ∧ ∀ e ∈ markFields c parts,
      (Json.entry fields' e.1 = Json.entry fields e.1 ∨ Json.entry fields' e.1 = e.2) ∧
      ((∃ o ∈ ops, pathOf o.key = [e.1]) → Json.entry fields' e.1 = e.2) := by
  induction ops generalizing fields with
  | nil =>
    obtain rfl := Option.some.inj h
    exact ⟨fields, rfl, fun e he => ⟨.inl rfl, by simp⟩⟩
  | cons o ops ih =>
    rw [applyAll, List.foldlM_cons, Option.bind_eq_bind, Option.bind_eq_some_iff] at h
    obtain ⟨mid, hmid, hrest⟩ := h
    obtain ⟨fields₁, rfl, hfirst⟩ := apply_marks hparts hmid (hops o (by simp))
    obtain ⟨fields', rfl, htail⟩ := ih hrest fun o ho => hops o (by simp [ho])
    refine ⟨fields', rfl, ?_⟩
    intro e he
    obtain ⟨hkept, hnamed⟩ := hfirst e he
    obtain ⟨hkept', hnamed'⟩ := htail e he
    constructor
    · cases hkept' with
      | inl hsame => rw [hsame]; exact hkept
      | inr hvalue => exact .inr hvalue
    · rintro ⟨o', ho', hpath⟩
      cases List.mem_cons.mp ho' with
      | inl heq =>
        subst heq
        cases hkept' with
        | inl hsame => rw [hsame]; exact hnamed hpath
        | inr hvalue => exact hvalue
      | inr hmem => exact hnamed' ⟨o', hmem, hpath⟩

/-- A script of careful operations. -/
theorem coupled_script {ops : List (Str × Str × Json)} {ops' : List DocOperation} {stored doc' : Json}
    (hstored : Coupled C stored) (hops : ScriptCareful C ops stored)
    (hvalid : validateOperations C.fields ops = .ok ops')
    (hrun : C.scripts.run (createScripts ops').source (createScripts ops').params stored =
      some doc') : Coupled C doc' := by
  obtain ⟨hdirect, hcareful⟩ := hops.2 ops' hvalid
  have happly : applyAll C.values ops' stored = some doc' := by
    rw [← (appliesTo_of_direct C.scripts hops.1 hvalid hdirect).1]
    exact hrun
  obtain ⟨fields, rfl, hfields⟩ := hstored
  cases hcareful with
  | inl hpasses =>
    obtain ⟨fields', rfl, hkeep⟩ := applyAll_passes happly hpasses
    exact ⟨fields', rfl, hfields.congr hkeep⟩
  | inr hmarks =>
    obtain ⟨c, parts, hparts, hfits, hall⟩ := hmarks
    obtain ⟨fields', rfl, hvalues⟩ := applyAll_marks hparts happly hfits
    refine ⟨fields', rfl, hfields.write hparts (fun e he => (hvalues e he).1) ?_⟩
    cases hall with
    | inl hsame => exact .inl (Option.some.inj hsame)
    | inr hall => exact .inr fun e he => (hvalues e he).2 (hall e.1 (mem_markKeys hparts he))

end Operations

section Histories

/-- The patterns of an update keep none of the marked fields, or keep those of one marking: all of
them, or for stored documents that have it. -/
def PatternsCareful (d : Instance C.isUc) (allowed : List Str) (stored : Str → Option Json) : Prop :=
  (∀ k ∈ markKeys, ¬ Selects allowed k) ∨ d.WellMarked C ∧
    ((∀ k ∈ markKeys, Selects allowed k) ∨
      ∀ c, Dict.get? d.held classificationKey = some (.marking C.isUc c) →
        ∀ index doc, stored index = some doc → Json.getAt [classificationKey] doc = some (.str c))

/-- The condition on a write and what is stored before it. -/
def Write.Careful (s : Store) : Write C → Prop
  | save _ _ data => data.WellMarked C
  | insert _ _ doc _ => doc.WellMarked C
  | index _ _ doc _ => doc.WellMarked C
  | upsert _ _ doc _ => doc.WellMarked C
  | bulkUpdate _ _ doc _ none => doc.WellMarked C
  | bulkUpdate indexes docId doc target (some patterns) =>
    PatternsCareful doc (expandFieldPatterns C.knownPaths patterns) fun index =>
      if index ∈ updateTargets indexes target then s (index, docId) else none
  | update place ops => ∀ doc, s place = some doc → ScriptCareful C ops doc
  | updateByQuery found ops => ∀ place, found place = true → ∀ doc, s place = some doc →
      ScriptCareful C ops doc

def StoreCoupled (C : ESCollection) (s : Store) : Prop := ∀ place doc, s place = some doc → Coupled C doc

theorem performAll_inv {P : Place → Option Json → Prop} {ops : List BulkOperation} {s : Store}
    (hs : ∀ p, P p (s p))
    (hops : ∀ o ∈ ops, ∀ stored, P o.1 stored → P o.1 (o.2.apply stored)) :
    ∀ p, P p (performAll ops s p) := by
  induction ops generalizing s with
  | nil => exact hs
  | cons o ops ih =>
    apply ih
    · intro p
      simp only [BulkOperation.perform, Store.put]
      by_cases hp : p = o.1
      · subst hp
        rw [if_pos rfl]
        exact hops o (by simp) _ (hs _)
      · rw [if_neg hp]
        exact hs p
    · intro o' ho'
      exact hops o' (by simp [ho'])

theorem coupled_send {request : Except PyError (List BulkOperation)} {s : Store}
    (hs : StoreCoupled C s)
    (hrequest : ∀ ops, request = .ok ops → ∀ o ∈ ops, ∀ stored, (∀ doc, stored = some doc → Coupled C doc) →
      ∀ doc, o.2.apply stored = some doc → Coupled C doc) :
    StoreCoupled C (send request s) := by
  cases request with
  | error e => exact hs
  | ok ops =>
    exact performAll_inv (P := fun _ stored => ∀ doc, stored = some doc → Coupled C doc) hs
      (hrequest ops rfl)

/-- The operations that write a whole document. -/
theorem coupled_whole {d : Instance C.isUc} (hd : d.WellMarked C) {docId : Str} {saved : Json}
    (h : savedDoc C.rt C.engine docId d = .ok saved) {action : Action}
    (haction : action = .create saved ∨ action = .index saved ∨ action = .update saved true)
    {stored : Option Json} (hstored : ∀ doc, stored = some doc → Coupled C doc) {doc : Json}
    (hdoc : action.apply stored = some doc) : Coupled C doc := by
  obtain ⟨hsaved, hmerge⟩ := coupled_savedDoc hd h
  rcases haction with rfl | rfl | rfl
  · cases stored with
    | none => exact Option.some.inj hdoc ▸ hsaved
    | some old => exact hstored doc hdoc
  · exact Option.some.inj hdoc ▸ hsaved
  · cases stored with
    | none => exact Option.some.inj hdoc ▸ hsaved
    | some old => exact Option.some.inj hdoc ▸ hmerge old (hstored old rfl)

theorem coupled_addWhole {d : Instance C.isUc} (hd : d.WellMarked C) {docId target : Str}
    {indexes : List Str} {action : Json → Action} {s : Store} (hs : StoreCoupled C s)
    (haction : ∀ saved, action saved = .create saved ∨ action saved = .index saved ∨
      action saved = .update saved true) :
    StoreCoupled C (send (addWholeOperation C.rt C.engine action indexes docId d target) s) := by
  apply coupled_send hs
  intro ops hops o ho stored hstored doc hdoc
  obtain ⟨saved, hsaved, hops⟩ := bind_eq_ok.mp hops
  obtain ⟨index, -, hops⟩ := bind_eq_ok.mp hops
  obtain rfl := Except.ok.inj hops
  obtain rfl := List.mem_singleton.mp ho
  exact coupled_whole hd hsaved (haction saved) hstored hdoc

theorem coupled_runScript {ops : List (Str × Str × Json)} {chosen : Place → Bool} {s : Store}
    (hs : StoreCoupled C s)
    (hops : ∀ place, chosen place = true → ∀ doc, s place = some doc → ScriptCareful C ops doc) :
    StoreCoupled C (runScript C ops chosen s) := by
  rw [runScript]
  cases hvalid : validateOperations C.fields ops with
  | error e => exact hs
  | ok ops' =>
    intro place doc hdoc
    dsimp only at hdoc
    by_cases hchosen : chosen place = true
    · rw [if_pos hchosen, Option.map_eq_some_iff] at hdoc
      obtain ⟨stored, hstored, rfl⟩ := hdoc
      cases hrun : C.scripts.run (createScripts ops').source (createScripts ops').params stored with
      | none => exact hs place stored hstored
      | some doc' =>
        exact coupled_script (hs place stored hstored) (hops place hchosen stored hstored) hvalid hrun
    · rw [if_neg hchosen] at hdoc
      exact hs place doc hdoc

/-- A body for the documents with an id that leaves the marked fields alone, or has the values of
one marking: all, or for documents with that marking. -/
theorem coupled_updates {body : Dict Str Json} (hnodup : (Dict.keys body).Nodup) {targets : List Str}
    {docId : Str} {s : Store} (hs : StoreCoupled C s)
    (hbody : (∀ k ∈ markKeys, Dict.get? body k = none) ∨
      ∃ c parts, accessParts C.rt C.engine C.isUc c = .ok parts ∧
        (∀ e ∈ markFields c parts, Dict.get? body e.1 = none ∨ Dict.get? body e.1 = some e.2) ∧
        ((∀ index ∈ targets, ∀ doc, s (index, docId) = some doc →
            Json.getAt [classificationKey] doc = some (.str c)) ∨
          ∀ e ∈ markFields c parts, Dict.get? body e.1 = some e.2)) :
    StoreCoupled C
      (performAll (targets.map fun i => ((i, docId), .update (.obj body) false)) s) := by
  -- what is stored at the places of the update keeps its marking if the body is for that one
  let Kept (p : Place) (doc : Json) : Prop := ∀ c parts,
    accessParts C.rt C.engine C.isUc c = .ok parts →
    (∀ e ∈ markFields c parts, Dict.get? body e.1 = none ∨ Dict.get? body e.1 = some e.2) →
    (∀ index ∈ targets, ∀ doc, s (index, docId) = some doc →
      Json.getAt [classificationKey] doc = some (.str c)) →
    p.2 = docId → p.1 ∈ targets → Json.getAt [classificationKey] doc = some (.str c)
  have hinv : ∀ p doc, performAll (targets.map fun i => ((i, docId), .update (.obj body) false)) s p =
      some doc → Coupled C doc ∧ Kept p doc := by
    apply performAll_inv (P := fun p stored => ∀ doc, stored = some doc → Coupled C doc ∧ Kept p doc)
    · intro p doc hdoc
      refine ⟨hs p doc hdoc, ?_⟩
      intro c parts _ _ hsame hid hp
      exact hsame p.1 hp doc (by rw [← hid]; exact hdoc)
    · intro o ho stored hstored doc hdoc
      obtain ⟨i, hi, rfl⟩ := List.mem_map.mp ho
      cases stored with
      | none => cases hdoc
      | some old =>
        obtain rfl := Option.some.inj hdoc
        obtain ⟨hold, hkept⟩ := hstored old rfl
        constructor
        · apply coupled_merge hold hnodup
          refine hbody.imp id ?_
          rintro ⟨c, parts, hparts, hvalues, hall⟩
          refine ⟨c, parts, hparts, hvalues, hall.imp (fun hsame => ?_) id⟩
          exact hkept c parts hparts hvalues hsame rfl hi
        · intro c parts hparts hvalues hsame hid hp
          have hclass := hkept c parts hparts hvalues hsame hid hp
          obtain ⟨fields, rfl, -⟩ := hold
          have hmerged : Json.getAt [classificationKey] (Json.merge (.obj fields) (.obj body)) =
              some (Json.entry (Json.mergeFields fields body) classificationKey) := rfl
          rw [hmerged, Json.entry, Json.get?_mergeFields hnodup]
          cases hvalues (classificationKey, .str c) (by simp [markFields]) with
          | inl hnone => rw [hnone]; exact hclass
          | inr hsome =>
            rw [hsome]
            exact congrArg some (merge_of_ne_obj (by simp) _)
  intro p doc hdoc
  exact (hinv p doc hdoc).1

theorem coupled_addUpdate {d : Instance C.isUc} {indexes : List Str} {docId target : Str}
    {fields : Option (List Str)} {s : Store} (hs : StoreCoupled C s)
    (hcareful : Write.Careful s (.bulkUpdate indexes docId d target fields)) :
    StoreCoupled C
      (send (addUpdateOperation C.rt C.engine C.knownPaths indexes docId d target fields) s) := by
  cases hrequest : addUpdateOperation C.rt C.engine C.knownPaths indexes docId d target fields with
  | error e => exact hs
  | ok ops =>
    obtain ⟨body, hbody, hops⟩ := bind_eq_ok.mp hrequest
    obtain ⟨out, hout, hbody⟩ := bind_eq_ok.mp hbody
    obtain rfl := Except.ok.inj hops
    cases fields with
    | none =>
      obtain rfl := Except.ok.inj hbody
      obtain ⟨hnodup, hmarks⟩ := asPrimitives_marks hcareful hout
      apply coupled_updates hnodup hs
      cases hmarks with
      | inl hnone => exact .inl hnone.2
      | inr hmark =>
        obtain ⟨c, parts, -, hparts, hvalues⟩ := hmark
        exact .inr ⟨c, parts, hparts, fun e he => .inr (hvalues e he), .inr hvalues⟩
    | some patterns =>
      obtain rfl := Except.ok.inj hbody
      obtain ⟨-, -, hnodup⟩ := foldlM_addPrimitive d.nodup d.named hout
      have hnodup := hnodup (by simp [Dict.keys])
      apply coupled_updates (nodup_keys_pruneFields hnodup _ _) hs
      cases hcareful with
      | inl hnone =>
        left
        intro k hk
        have hk' := hnone k hk
        rw [Selects, not_or] at hk'
        have hpath : curPath [] k = k := rfl
        rw [get?_pruneFields hnodup, hpath, if_neg hk'.1, if_neg hk'.2]
      | inr hmarked =>
        obtain ⟨hd, hsame⟩ := hmarked
        cases (asPrimitives_marks hd hout).2 with
        | inl hnone =>
          left
          intro k hk
          have hget := hnone.2 k hk
          rw [get?_pruneFields hnodup, hget]
          split
          · rfl
          · split <;> rfl
        | inr hmark =>
          right
          obtain ⟨c, parts, hclass, hparts, hvalues⟩ := hmark
          refine ⟨c, parts, hparts, ?_, ?_⟩
          · intro e he
            have hpruned := get?_pruned hnodup hparts he (hvalues e he)
              (expandFieldPatterns C.knownPaths patterns)
            by_cases hselects : Selects (expandFieldPatterns C.knownPaths patterns) e.1
            · exact .inr (hpruned.1 hselects)
            · exact .inl (hpruned.2 hselects)
          · cases hsame with
            | inl hall =>
              right
              intro e he
              exact (get?_pruned hnodup hparts he (hvalues e he) _).1 (hall e.1 (mem_markKeys hparts he))
            | inr hstored =>
              left
              intro index hindex doc hdoc
              exact hstored c hclass index doc (by simpa [hindex] using hdoc)

theorem coupled_step {w : Write C} {s : Store} (hs : StoreCoupled C s) (hw : w.Careful s) :
    StoreCoupled C (w.step C s) := by
  cases w with
  | save place create data =>
    apply coupled_send hs
    intro ops hops o ho stored hstored doc hdoc
    obtain ⟨saved, hsaved, hops⟩ := bind_eq_ok.mp hops
    obtain rfl := Except.ok.inj hops
    obtain rfl := List.mem_singleton.mp ho
    apply coupled_whole hw hsaved _ hstored hdoc
    cases create with
    | true => exact .inl rfl
    | false => exact .inr (.inl rfl)
  | insert indexes docId doc target => exact coupled_addWhole hw hs fun _ => .inl rfl
  | index indexes docId doc target => exact coupled_addWhole hw hs fun _ => .inr (.inl rfl)
  | upsert indexes docId doc target => exact coupled_addWhole hw hs fun _ => .inr (.inr rfl)
  | bulkUpdate indexes docId doc target fields => exact coupled_addUpdate hs hw
  | update place ops =>
    apply coupled_runScript hs
    intro p hp doc hdoc
    obtain rfl : p = place := by simpa using hp
    exact hw doc hdoc
  | updateByQuery found ops => exact coupled_runScript hs hw

def run (C : ESCollection) (ws : List (Write C)) (s : Store) : Store :=
  ws.foldl (fun s w => w.step C s) s

theorem run_cons (w : Write C) (ws : List (Write C)) (s : Store) :
    run C (w :: ws) s = run C ws (w.step C s) := rfl

theorem run_nil (s : Store) : run C [] s = s := rfl

/-- Each write is careful of what is stored before it. -/
def CarefulRun (C : ESCollection) : Store → List (Write C) → Prop
  | _, [] => True
  | s, w :: ws => w.Careful s ∧ CarefulRun C (w.step C s) ws

theorem coupled_run {ws : List (Write C)} {s : Store} (hs : StoreCoupled C s)
    (hws : CarefulRun C s ws) : StoreCoupled C (run C ws s) := by
  induction ws generalizing s with
  | nil => exact hs
  | cons w ws ih => exact ih (coupled_step hs hws.1) hws.2

def emptyStore : Store := fun _ => none

/-- After careful writes every stored document has the access fields of its classification. -/
theorem access_fields_follow (C : ESCollection) (ws : List (Write C))
    (hws : CarefulRun C emptyStore ws) (place : Place) (doc : Json)
    (hdoc : run C ws emptyStore place = some doc) : Coupled C doc := by
  have hempty : StoreCoupled C emptyStore := by
    intro place doc hdoc
    cases hdoc
  exact coupled_run hempty hws place doc hdoc

/-- What a save stores. -/
theorem step_save {place : Place} {data : Instance C.isUc} {out : Dict Str Json} (s : Store)
    (hout : data.asPrimitives C.rt C.engine = .ok out) :
    Write.step C (.save place false data) s place =
      some (.obj (Dict.set out "id".toList (.str place.2))) := by
  have hsaved : savedDoc C.rt C.engine place.2 data =
      .ok (.obj (Dict.set out "id".toList (.str place.2))) := by
    rw [savedDoc, hout]
    rfl
  have hsave : saveOperation C place false data =
      .ok [(place, .index (.obj (Dict.set out "id".toList (.str place.2))))] := by
    unfold saveOperation
    rw [hsaved]
    rfl
  rw [Write.step, hsave]
  simp only [send, performAll, List.foldl_cons, List.foldl_nil, BulkOperation.perform, Store.put,
    Action.apply, if_true]

/-- What an update in one index makes of what is stored. -/
theorem step_bulkUpdate {i docId : Str} {data : Instance C.isUc} {fields : Option (List Str)}
    {body : Dict Str Json} (s : Store)
    (hbody : updateBody C.rt C.engine C.knownPaths data fields = .ok body) :
    Write.step C (.bulkUpdate [i] docId data [] fields) s (i, docId) =
      (s (i, docId)).map fun doc => Json.merge doc (.obj body) := by
  have hupdate : addUpdateOperation C.rt C.engine C.knownPaths [i] docId data [] fields =
      .ok [((i, docId), .update (.obj body) false)] := by
    rw [addUpdateOperation, hbody]
    rfl
  rw [Write.step, hupdate]
  simp only [send, performAll, List.foldl_cons, List.foldl_nil, BulkOperation.perform, Store.put, if_true]
  cases s (i, docId) with
  | _ => rfl

/-- A script keeps a document a document. -/
theorem step_update {place : Place} {ops : List (Str × Str × Json)} {s : Store} {doc : Json}
    (hdoc : s place = some doc) : ∃ doc', Write.step C (.update place ops) s place = some doc' := by
  rw [Write.step, runScript]
  cases validateOperations C.fields ops with
  | error e => exact ⟨doc, hdoc⟩
  | ok ops' =>
    dsimp only
    rw [if_pos (by simp), hdoc]
    exact ⟨_, rfl⟩

end Histories

section Records

/-- A collection of records with a message and a classification. -/
def records : ESCollection where
  rt := Runtime.ascii
  engine := engineOf Runtime.ascii dynamicOne
  isUc := false
  knownPaths := ["message".toList, "classification".toList]
  fields := [("message".toList, ⟨some, none⟩), ("classification".toList, ⟨some, none⟩)]
  values := textValues
  scripts := Painless.reader textValues

def record (message c : Str) : Instance false where
  held := [("message".toList, .value (.str message)), ("classification".toList, .marking false c)]
  nodup := by simp [Dict.keys]
  named := by
    have hnamed : ∀ k ∈ accessKeys, k ∉ ["message".toList, "classification".toList] := by
      decide +kernel
    exact hnamed
  nonempty := by
    have hnonempty : [] ∉ ["message".toList, "classification".toList] := by decide +kernel
    exact hnonempty
  keyed := by
    intro e he j hj
    cases List.mem_cons.mp he with
    | inl heq =>
      rw [heq] at hj
      exact Held.value.inj hj ▸ Json.keyed_str message
    | inr hmem =>
      rw [List.mem_singleton.mp hmem] at hj
      cases hj
  marked := by
    intro v hv
    have hget : Dict.get? [("message".toList, Held.value (.str message)),
        ("classification".toList, .marking false c)] "classification".toList =
          some (.marking false c) := rfl
    rw [hget] at hv
    exact ⟨c, (Option.some.inj hv).symm⟩

theorem wellMarked_record (message c : Str) : (record message c).WellMarked records := by
  intro isUc c' h
  obtain ⟨rfl, rfl⟩ : false = isUc ∧ c = c' := by simpa [record, lastMarking] using h
  exact ⟨c, rfl, rfl⟩

def openParts : AccessControlParts := ⟨.idx 100, [], [Engine.emptyGroup], [Engine.emptyGroup]⟩

def departmentParts : AccessControlParts := ⟨.idx 100, [], ["D1".toList], [Engine.emptyGroup]⟩

theorem parts_of_markings :
    records.engine.getAccessControlParts records.rt "UNRESTRICTED".toList false = .ok openParts ∧
      records.engine.getAccessControlParts records.rt "UNRESTRICTED//REL TO DEPARTMENT 1".toList
        false = .ok departmentParts := by
  decide +kernel

theorem asPrimitives_record {c : Str} {p : AccessControlParts} (message : Str)
    (h : records.engine.getAccessControlParts records.rt c false = .ok p) :
    ∃ out, (record message c).asPrimitives records.rt records.engine = .ok out := by
  apply exists_asPrimitives
  intro e he isUc c' hmarking
  have hc : isUc = false ∧ c' = c := by
    cases List.mem_cons.mp he with
    | inl heq =>
      rw [heq] at hmarking
      cases hmarking
    | inr hmem =>
      obtain rfl := List.mem_singleton.mp hmem
      exact ⟨(Held.marking.inj hmarking).1.symm, (Held.marking.inj hmarking).2.symm⟩
  rw [hc.1, hc.2, accessParts, h]
  exact ⟨_, rfl⟩

/-- The primitives of a record hold its marking. -/
theorem get?_record {message c : Str} {p : AccessControlParts} {out : Dict Str Json}
    (h : records.engine.getAccessControlParts records.rt c false = .ok p)
    (hout : (record message c).asPrimitives records.rt records.engine = .ok out) :
    accessParts records.rt records.engine records.isUc c = .ok (accessFields p) ∧
      (Dict.keys out).Nodup ∧
      ∀ e ∈ markFields c (accessFields p), Dict.get? out e.1 = some e.2 := by
  have hparts : accessParts records.rt records.engine records.isUc c = .ok (accessFields p) := by
    rw [accessParts]
    exact congrArg (fun r => r >>= fun parts => pure (accessFields parts)) h
  have hheld : Dict.get? (record message c).held classificationKey = some (.marking false c) := rfl
  obtain ⟨hnodup, hmarks⟩ := asPrimitives_marks (wellMarked_record message c) hout
  refine ⟨hparts, hnodup, ?_⟩
  cases hmarks with
  | inl hnone =>
    rw [hheld] at hnone
    cases hnone.1
  | inr hmark =>
    obtain ⟨c', parts, hclass, hparts', hvalues⟩ := hmark
    rw [hheld] at hclass
    obtain rfl : c = c' := (Held.marking.inj (Option.some.inj hclass)).2
    rw [hparts] at hparts'
    obtain rfl := Except.ok.inj hparts'
    exact hvalues

def openRecord : Instance false := record "new".toList "UNRESTRICTED".toList

def departmentRecord : Instance false :=
  record "new".toList "UNRESTRICTED//REL TO DEPARTMENT 1".toList

def hitIndex : Str := "hit".toList

def hitId : Str := "1".toList

def setMessage : List (Str × Str × Json) := [("SET".toList, "message".toList, .str "seen".toList)]

theorem scriptCareful_setMessage (stored : Json) : ScriptCareful records setMessage stored := by
  refine ⟨by decide +kernel, ?_⟩
  intro ops' hvalid
  have hops : validateOperations records.fields setMessage =
      .ok [⟨.set, "message".toList, .str "seen".toList⟩] := rfl
  rw [hops] at hvalid
  obtain rfl := Except.ok.inj hvalid
  have hparts : ∀ o ∈ [DocOperation.mk .set "message".toList (.str "seen".toList)],
      ∀ k ∈ o.readPath, k ∉ Painless.listProperties ++ Painless.numberProperties := by
    decide +kernel
  refine ⟨directAll_of_forall _ hparts stored, .inl ?_⟩
  intro o ho
  obtain rfl := List.mem_singleton.mp ho
  rw [DocOperation.Passes]
  decide +kernel

/-- A record is saved, its message set, and its marking changed as a whole. -/
theorem access_fields_follow_record : ∃ doc,
    run records [.save (hitIndex, hitId) false openRecord, .update (hitIndex, hitId) setMessage,
      .bulkUpdate [hitIndex] hitId departmentRecord [] none] emptyStore (hitIndex, hitId) =
        some doc ∧ Coupled records doc := by
  obtain ⟨out, hout⟩ := asPrimitives_record "new".toList parts_of_markings.1
  obtain ⟨out', hout'⟩ := asPrimitives_record "new".toList parts_of_markings.2
  have hbody : updateBody records.rt records.engine records.knownPaths departmentRecord none =
      .ok out' := by
    rw [updateBody, departmentRecord, hout']
    rfl
  have hsaved := @step_save records (hitIndex, hitId) openRecord _ emptyStore hout
  obtain ⟨doc, hdoc⟩ := @step_update records _ setMessage _ _ hsaved
  have hupdated := @step_bulkUpdate records hitIndex hitId _ _ _
    (Write.step records (.update (hitIndex, hitId) setMessage)
      (Write.step records (.save (hitIndex, hitId) false openRecord) emptyStore)) hbody
  have hrun : run records [.save (hitIndex, hitId) false openRecord,
      .update (hitIndex, hitId) setMessage, .bulkUpdate [hitIndex] hitId departmentRecord [] none]
      emptyStore (hitIndex, hitId) = some (Json.merge doc (.obj out')) := by
    rw [run_cons, run_cons, run_cons, run_nil, hupdated, hdoc]
    rfl
  refine ⟨Json.merge doc (.obj out'), hrun, access_fields_follow records _ ?_ _ _ hrun⟩
  exact ⟨wellMarked_record _ _, fun stored _ => scriptCareful_setMessage stored,
    wellMarked_record _ _, trivial⟩

/-- A record of which only the classification is updated keeps its access fields. -/
theorem classification_moves_alone : ¬ ∀ ws place doc,
    run records ws emptyStore place = some doc → Coupled records doc := by
  intro hall
  obtain ⟨out, hout⟩ := asPrimitives_record "new".toList parts_of_markings.1
  obtain ⟨out', hout'⟩ := asPrimitives_record "new".toList parts_of_markings.2
  have hbody : updateBody records.rt records.engine records.knownPaths departmentRecord
      (some [classificationKey]) = .ok (pruneFields [classificationKey] [] out') := by
    rw [updateBody, departmentRecord, hout']
    rfl
  have hsaved := @step_save records (hitIndex, hitId) openRecord _ emptyStore hout
  have hupdated := @step_bulkUpdate records hitIndex hitId _ _ _
    (Write.step records (.save (hitIndex, hitId) false openRecord) emptyStore) hbody
  have hrun : run records [.save (hitIndex, hitId) false openRecord,
      .bulkUpdate [hitIndex] hitId departmentRecord [] (some [classificationKey])]
      emptyStore (hitIndex, hitId) =
        some (Json.merge (.obj (Dict.set out "id".toList (.str hitId)))
          (.obj (pruneFields [classificationKey] [] out'))) := by
    rw [run_cons, run_cons, run_nil, hupdated, hsaved]
    rfl
  obtain ⟨hopen, hnodup, hvalues⟩ := get?_record parts_of_markings.1 hout
  obtain ⟨hdepartment, hnodup', hvalues'⟩ := get?_record parts_of_markings.2 hout'
  obtain ⟨fields, hfields, htogether⟩ := hall _ _ _ hrun
  obtain rfl := Json.obj.inj hfields
  have hmark : (classificationKey, Json.str "UNRESTRICTED//REL TO DEPARTMENT 1".toList) ∈
      markFields "UNRESTRICTED//REL TO DEPARTMENT 1".toList (accessFields departmentParts) :=
    List.mem_cons_self
  have hgroup : ∀ c p, ("__access_grp1__".toList, Json.list (p.accessGrp1.map .str)) ∈
      markFields c (accessFields p) := by
    intro c p
    simp [markFields, accessFields]
  -- the update brings the marking and leaves its groups behind
  have hclass : Json.entry (Json.mergeFields (Dict.set out "id".toList (.str hitId))
      (pruneFields [classificationKey] [] out')) classificationKey =
        .str "UNRESTRICTED//REL TO DEPARTMENT 1".toList := by
    have hget := (get?_pruned hnodup' hdepartment hmark (hvalues' _ hmark) [classificationKey]).1
      (.inl (by simp))
    rw [Json.entry, Json.get?_mergeFields (nodup_keys_pruneFields hnodup' _ _), hget]
    exact merge_of_ne_obj (by simp) _
  have hgroups : Json.entry (Json.mergeFields (Dict.set out "id".toList (.str hitId))
      (pruneFields [classificationKey] [] out')) "__access_grp1__".toList =
        .list (openParts.accessGrp1.map .str) := by
    have hget := (get?_pruned hnodup' hdepartment (hgroup _ _) (hvalues' _ (hgroup _ _))
      [classificationKey]).2 (by rw [Selects]; decide +kernel)
    rw [Json.entry, Json.get?_mergeFields (nodup_keys_pruneFields hnodup' _ _), hget]
    have hold := hvalues _ (hgroup "UNRESTRICTED".toList openParts)
    dsimp only at hold ⊢
    rw [Dict.get?_set, if_neg (by decide), hold]
    rfl
  have hnot : Json.list (openParts.accessGrp1.map .str) ≠
      Json.list (departmentParts.accessGrp1.map .str) := by
    intro h
    have hgroups : openParts.accessGrp1.map Json.str = departmentParts.accessGrp1.map Json.str :=
      Json.list.inj h
    have hinj : Function.Injective Json.str := fun s t => Json.str.inj
    have hnames := List.map_injective_iff.mpr hinj hgroups
    exact absurd hnames (by decide +kernel)
  cases htogether with
  | inl hnull => exact Json.noConfusion (hclass.symm.trans hnull)
  | inr hmarking =>
    obtain ⟨c, parts, hparts, hvalue⟩ := hmarking
    have hc := hclass.symm.trans (hvalue (classificationKey, .str c) List.mem_cons_self)
    have hc' := Json.str.inj hc
    rw [← hc', hdepartment] at hparts
    have hparts' := Except.ok.inj hparts
    have hd := hvalue _ (hparts' ▸ hgroup c departmentParts)
    exact hnot (hgroups.symm.trans hd)

end Records

end Howler.Datastore
