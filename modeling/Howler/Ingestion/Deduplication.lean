import Howler.Ingestion.Hashes
import Howler.Ingestion.Tool

namespace Howler.Ingestion

open Python Structures

section Purpose

/-- The search finds the hashes of a list that are stored. -/
def Found (search : Str → Option (Str → Bool)) (stored hashes : List Str) : Prop :=
  ∃ existing, existingHashes search stored hashes = some existing ∧
    ∀ h ∈ hashes, h ∈ stored → h ∈ existing

/-- The search finds what is stored, before and after the rest is stored, and no hash that is not
stored occurs twice. -/
structure Fits (search : Str → Option (Str → Bool)) (stored hashes : List Str) : Prop where
  found : Found search stored hashes
  foundAgain : Found search (stored ++ unsaved stored hashes) hashes
  distinct : (unsaved stored hashes).Nodup

/-- The hash of a prepared hit, which has one. -/
def hashText (hit : Dict Str Value) : Str := (hashOf hit).getD []

/-- The hashes of a list of hits, if each of them has one. -/
def hashesOf (client : Client) (data : List Submitted) : Option (List Str) :=
  match data.mapM fun hit => prepare client hit.fields with
  | .error _ => none
  | .ok hits => hits.mapM hashOf

/-- `create` posts a hit for each hash that is not stored, and nothing when it is run again. -/
def CreateSound (client : Client) (stored : List Str) (data : List Submitted) : Prop :=
  ∃ hits posted, (data.mapM fun hit => prepare client hit.fields) = .ok hits ∧
    create client stored data = .ok posted ∧ posted.Sublist hits ∧
    OncePerHash stored (hits.map hashText) (posted.map hashText) ∧
    create client (stored ++ posted.map hashText) data = .ok []

/-- Each hit has a hash that is a text, or an analytic, and the hashes fit. -/
def CreateFits (client : Client) (stored : List Str) (data : List Submitted) : Prop :=
  ∃ hashes, hashesOf client data = some hashes ∧ Fits client.search stored hashes

/-- A request creates a hit for each hash that is not stored, and none when it is made again. -/
def IngestSound (search : Str → Option (Str → Bool)) (stored : List Str) (r : Ingested) : Prop :=
  ∃ created, createOneOrManyHits search stored r = .ok created ∧
    (∀ odm ∈ created, odm ∈ r.odms) ∧
    OncePerHash stored (r.odms.map Odm.hash) (created.map Odm.hash) ∧
    ∀ r' : Ingested, r'.odms.map Odm.hash = r.odms.map Odm.hash →
      r'.out.any Outcome.failed = false →
      createOneOrManyHits search (stored ++ created.map Odm.hash) r' = .ok []

/-- The hits are converted, the hashes fit, and a bundle that is not stored has a child that is not
stored. -/
structure IngestFits (search : Str → Option (Str → Bool)) (stored : List Str) (r : Ingested) :
    Prop where
  converted : r.out.any Outcome.failed = false
  fits : r.odms ≠ [] → Fits search stored (r.odms.map Odm.hash)
  child : ∀ odm ∈ r.odms, r.bundleId = some odm.id → odm.hash ∉ stored →
    ∃ odm' ∈ r.odms, odm'.id ≠ odm.id ∧ odm'.hash ∉ stored

end Purpose

section Found

variable {α : Type} {hash : α → Str} {hits : List α} {search : Str → Option (Str → Bool)}
  {stored existing : List Str}

/-- What is left over of a list. -/
def missing (hash : α → Str) (existing : List Str) (hits : List α) : List α :=
  hits.filter fun a => hash a ∉ existing

theorem missing_eq_nil_iff : missing hash existing hits = [] ↔ ∀ h ∈ hits.map hash, h ∈ existing := by
  simp [missing, List.filter_eq_nil_iff]

theorem map_missing (hash : α → Str) (existing : List Str) (hits : List α) :
    (missing hash existing hits).map hash = unsaved existing (hits.map hash) := by
  rw [unsaved, List.filter_map]
  rfl

/-- What is left over are the hashes that are not stored, if those that are stored are found. -/
theorem unsaved_eq_of_found (hexisting : existing ⊆ stored) {hashes : List Str}
    (hfound : ∀ h ∈ hashes, h ∈ stored → h ∈ existing) :
    unsaved existing hashes = unsaved stored hashes := by
  refine List.filter_congr fun x hx => ?_
  rw [decide_eq_decide, not_iff_not]
  exact ⟨fun hmem => hexisting hmem, hfound x hx⟩

theorem mem_append_unsaved {hashes : List Str} {h : Str} (hmem : h ∈ hashes) :
    h ∈ stored ++ unsaved stored hashes := by
  by_cases hstored : h ∈ stored
  · exact List.mem_append_left _ hstored
  · exact List.mem_append_right _ (List.mem_filter.mpr ⟨hmem, by simpa using hstored⟩)

/-- The hashes fit exactly where what is left over makes up for what is stored, and nothing is left
over after it is stored as well. -/
theorem fits_iff (hfirst : existingHashes search stored (hits.map hash) = some existing) :
    Fits search stored (hits.map hash) ↔
      OncePerHash stored (hits.map hash) ((missing hash existing hits).map hash) ∧
      ∃ again, existingHashes search (stored ++ (missing hash existing hits).map hash)
          (hits.map hash) = some again ∧ missing hash again hits = [] := by
  have hexisting := mem_of_existingHashes hfirst
  constructor
  · rintro ⟨⟨existing', hfirst', hfound⟩, ⟨again, hagain, hfoundAgain⟩, hdistinct⟩
    cases hfirst.symm.trans hfirst'
    refine ⟨(oncePerHash_iff hexisting).mpr ⟨hfound, hdistinct⟩, again, ?_, ?_⟩
    · rw [map_missing, unsaved_eq_of_found hexisting hfound]
      exact hagain
    · exact missing_eq_nil_iff.mpr fun h hh => hfoundAgain h hh (mem_append_unsaved hh)
  · rintro ⟨honce, again, hagain, hnil⟩
    obtain ⟨hfound, hdistinct⟩ := (oncePerHash_iff hexisting).mp honce
    rw [map_missing, unsaved_eq_of_found hexisting hfound] at hagain
    exact ⟨⟨existing, hfirst, hfound⟩,
      ⟨again, hagain, fun h hh _ => missing_eq_nil_iff.mp hnil h hh⟩, hdistinct⟩

/-- A search that finds the hits with one of the hashes finds all that are stored. -/
theorem found_of_words {hashes : List Str}
    (hsearch : search (hashQuery hashes) = some fun x => decide (x ∈ hashes)) (stored : List Str) :
    Found search stored hashes := by
  have hsome : (existingHashes search stored hashes).isSome := by
    rw [isSome_existingHashes, hsearch]
    rfl
  obtain ⟨existing, hexisting⟩ := Option.isSome_iff_exists.mp hsome
  exact ⟨existing, hexisting, fun h hh hstored =>
    mem_existingHashes_of_words hsearch hexisting hh hstored⟩

/-- Hashes that the search finds fit if none that is not stored occurs twice. -/
theorem fits_iff_of_words {hashes : List Str}
    (hsearch : search (hashQuery hashes) = some fun x => decide (x ∈ hashes)) :
    Fits search stored hashes ↔ (unsaved stored hashes).Nodup :=
  ⟨Fits.distinct, fun h => ⟨found_of_words hsearch _, found_of_words hsearch _, h⟩⟩

end Found

section Create

variable {existing : List Str} {hit : ℕ × Dict Str Value}
  {kept rest : List (ℕ × Dict Str Value)} {hits : List (Dict Str Value)} {hashes stored : List Str}

/-- Hits that are equal have the same hash. -/
theorem hashOf_eq_of_same {d d' : Dict Str Value} {h : Str}
    (hsame : Structures.Tree.same Scalar.same (.obj d) (.obj d') = true) (hd : hashOf d = some h) :
    hashOf d' = some h := by
  unfold hashOf at hd ⊢
  rw [Structures.Tree.same, Bool.and_eq_true, Structures.Tree.sameFields_iff] at hsame
  split at hd
  · next s hget =>
    cases hd
    obtain ⟨v, hv, hleaf⟩ := hsame.2 _ (Dict.mem_of_get? hget)
    rw [hv]
    cases v with
    | list xs => cases hleaf
    | obj fields => cases hleaf
    | leaf a =>
      rw [Structures.Tree.same] at hleaf
      cases a with
      | str t =>
        have hs : h = t := by simpa [Scalar.same] using hleaf
        rw [hs]
      | _ => simp [Scalar.same, Scalar.number] at hleaf
  · cases hd

/-- The hit that is removed is the first one that is left with a hash that exists. -/
theorem remove_eq (hkept : ∀ e ∈ kept, e.1 ≠ hit.1 ∧ (hashOf e.2).isSome ∧ hashOf e.2 ≠ hashOf hit.2)
    (rest : List (ℕ × Dict Str Value)) : remove hit (kept ++ hit :: rest) = .ok (kept ++ rest) := by
  have hdiffers : ∀ e ∈ kept, ¬ (decide (e.1 = hit.1) ||
      Structures.Tree.same Scalar.same (.obj e.2) (.obj hit.2)) = true := by
    intro e he hequal
    obtain ⟨hid, hsome, hhash⟩ := hkept e he
    obtain ⟨h, hh⟩ := Option.isSome_iff_exists.mp hsome
    rw [Bool.or_eq_true, decide_eq_true_eq] at hequal
    rcases hequal with heq | hsame
    · exact hid heq
    · exact hhash (hh.trans (hashOf_eq_of_same hsame hh).symm)
  rw [remove, if_pos (List.any_eq_true.mpr ⟨hit, by simp, by simp⟩),
    List.eraseP_append_right _ hdiffers, List.eraseP_cons_of_pos (by simp)]

/-- The loop takes out the hits whose hash exists. -/
theorem removeExisting_eq (hids : ((kept ++ rest).map Prod.fst).Nodup)
    (hsome : ∀ e ∈ kept ++ rest, (hashOf e.2).isSome)
    (hkept : ∀ e ∈ kept, (hashOf e.2).any (· ∈ existing) = false) :
    removeExisting existing rest (kept ++ rest) =
      .ok (kept ++ rest.filter fun e => !(hashOf e.2).any (· ∈ existing)) := by
  induction rest generalizing kept with
  | nil => simp [removeExisting]
  | cons hit rest ih =>
    rw [removeExisting]
    by_cases hexists : (hashOf hit.2).any (· ∈ existing) = true
    · have hbefore : ∀ e ∈ kept, e.1 ≠ hit.1 ∧ (hashOf e.2).isSome ∧ hashOf e.2 ≠ hashOf hit.2 := by
        intro e he
        refine ⟨fun heq => ?_, hsome e (List.mem_append_left _ he), fun heq => ?_⟩
        · rw [List.map_append, List.nodup_append] at hids
          exact hids.2.2 e.1 (List.mem_map_of_mem he) hit.1 (by simp) heq
        · have hnot := hkept e he
          rw [heq, hexists] at hnot
          cases hnot
      rw [if_pos hexists, remove_eq hbefore, List.filter_cons_of_neg (by simp [hexists])]
      refine ih ?_ (fun e he => hsome e ?_) hkept
      · refine hids.sublist (List.Sublist.map _ ?_)
        exact (List.Sublist.refl kept).append (List.sublist_cons_self hit rest)
      · rw [List.mem_append] at he ⊢
        exact he.imp_right (List.mem_cons_of_mem _)
    · rw [Bool.not_eq_true] at hexists
      rw [if_neg (by simp [hexists]), List.filter_cons_of_pos (by simp [hexists])]
      have hmove : kept ++ hit :: rest = (kept ++ [hit]) ++ rest := by simp
      rw [hmove, ih (hmove ▸ hids) (hmove ▸ hsome)]
      · simp
      · intro e he
        rcases List.mem_append.mp he with he | he
        · exact hkept e he
        · rwa [List.mem_singleton.mp he]

/-- The hashes of hits that have one. -/
theorem hashes_eq (h : hits.mapM hashOf = some hashes) :
    hashes = hits.map hashText ∧ ∀ hit ∈ hits, hashOf hit = some (hashText hit) := by
  induction hits generalizing hashes with
  | nil =>
    cases h
    simp
  | cons hit hits ih =>
    rw [List.mapM_cons] at h
    cases hhit : hashOf hit with
    | none =>
      rw [hhit] at h
      cases h
    | some s =>
      cases hrest : hits.mapM hashOf with
      | none =>
        rw [hhit, hrest] at h
        cases h
      | some rest =>
        rw [hhit, hrest] at h
        cases h
        obtain ⟨hmap, hall⟩ := ih hrest
        have htext : hashText hit = s := by rw [hashText, hhit, Option.getD_some]
        refine ⟨by rw [List.map_cons, htext, ← hmap], List.forall_mem_cons.mpr ⟨?_, hall⟩⟩
        rw [htext, hhit]

/-- What is posted is what is left over. -/
theorem removeExisting_hits (hsome : ∀ hit ∈ hits, hashOf hit = some (hashText hit)) :
    ((removeExisting existing (hits.zipIdx.map Prod.swap) (hits.zipIdx.map Prod.swap)).map fun hits =>
      hits.map Prod.snd) = .ok (missing hashText existing hits) := by
  have hsnd : (hits.zipIdx.map Prod.swap).map Prod.snd = hits := by
    rw [List.map_map]
    exact List.zipIdx_map_fst 0 hits
  have hids : ((hits.zipIdx.map Prod.swap).map Prod.fst).Nodup := by
    have hrange : (hits.zipIdx.map Prod.swap).map Prod.fst = List.range' 0 hits.length := by
      rw [List.map_map]
      exact List.zipIdx_map_snd 0 hits
    rw [hrange]
    exact List.nodup_range'
  have hall : ∀ e ∈ hits.zipIdx.map Prod.swap, hashOf e.2 = some (hashText e.2) := by
    intro e he
    apply hsome
    rw [← hsnd]
    exact List.mem_map_of_mem he
  have heq := @removeExisting_eq existing [] (hits.zipIdx.map Prod.swap)
    hids (fun e he => by rw [hall e he]; rfl) (fun e he => (nomatch he))
  rw [List.nil_append, List.nil_append] at heq
  rw [heq]
  change Except.ok _ = Except.ok _
  have hfilter : (hits.zipIdx.map Prod.swap).filter (fun e => !(hashOf e.2).any (· ∈ existing)) =
      (hits.zipIdx.map Prod.swap).filter fun e => decide (hashText e.2 ∉ existing) := by
    refine List.filter_congr fun e he => ?_
    rw [hall e he]
    simp
  rw [hfilter, missing]
  conv_rhs => rw [← hsnd, List.filter_map]
  rfl

variable {client : Client} {data : List Submitted}

/-- What `create` does with hits that have a hash. -/
theorem create_eq (hprepare : (data.mapM fun hit => prepare client hit.fields) = .ok hits)
    (hhashes : hits.mapM hashOf = some hashes) (stored : List Str) :
    create client stored data =
      match existingHashes client.search stored hashes with
      | none => .error .request
      | some existing => .ok (missing hashText existing hits) := by
  unfold create
  rw [hprepare]
  change (match hits.mapM hashOf with
    | none => _
    | some hashes => _) = _
  rw [hhashes]
  dsimp only
  cases existingHashes client.search stored hashes with
  | none => rfl
  | some existing => exact removeExisting_hits (hashes_eq hhashes).2

/-- `create` is sound exactly where the hashes of the hits fit. -/
theorem createSound_iff (client : Client) (stored : List Str) (data : List Submitted) :
    CreateSound client stored data ↔ CreateFits client stored data := by
  unfold CreateSound CreateFits hashesOf
  cases hprepare : data.mapM fun hit => prepare client hit.fields with
  | error e => simp
  | ok hits =>
    dsimp only
    cases hhashes : hits.mapM hashOf with
    | none =>
      refine iff_of_false ?_ (by simp)
      rintro ⟨hits', posted, -, hcreate, -⟩
      unfold create at hcreate
      rw [hprepare] at hcreate
      change (match hits.mapM hashOf with
        | none => _
        | some hashes => _) = _ at hcreate
      rw [hhashes] at hcreate
      cases hcreate
    | some hashes =>
      obtain ⟨rfl, -⟩ := hashes_eq hhashes
      cases hfirst : existingHashes client.search stored (hits.map hashText) with
      | none =>
        refine iff_of_false ?_ ?_
        · rintro ⟨hits', posted, -, hcreate, -⟩
          rw [create_eq hprepare hhashes, hfirst] at hcreate
          cases hcreate
        · rintro ⟨hashes, hsome, hfits⟩
          cases hsome
          obtain ⟨existing, hexisting, -⟩ := hfits.found
          cases hfirst.symm.trans hexisting
      | some existing =>
        constructor
        · rintro ⟨hits', posted, hok, hcreate, -, honce, hagain⟩
          cases hok
          rw [create_eq hprepare hhashes, hfirst] at hcreate
          cases hcreate
          refine ⟨_, rfl, (fits_iff hfirst).mpr ⟨honce, ?_⟩⟩
          rw [create_eq hprepare hhashes] at hagain
          split at hagain
          · cases hagain
          · next again hexisting => exact ⟨again, hexisting, Except.ok.inj hagain⟩
        · rintro ⟨hashes, hsome, hfits⟩
          cases hsome
          obtain ⟨honce, again, hexisting, hnil⟩ := (fits_iff hfirst).mp hfits
          refine ⟨hits, missing hashText existing hits, rfl, ?_, List.filter_sublist, honce, ?_⟩
          · rw [create_eq hprepare hhashes, hfirst]
          · rw [create_eq hprepare hhashes, hexisting]
            exact congrArg Except.ok hnil

end Create

section Ingest

variable {existing stored : List Str} {odms created : List Odm} {out : List Outcome} {b : Option Str}

theorem deduplicate_eq (existing : List Str) (odms : List Odm) (out : List Outcome) :
    (deduplicate existing odms out).1 = missing Odm.hash existing odms := by
  induction odms generalizing out with
  | nil => rfl
  | cons odm odms ih =>
    rw [deduplicate, missing]
    by_cases hmem : odm.hash ∈ existing
    · rw [if_pos hmem, ih, List.filter_cons_of_neg (by simpa using hmem)]
      rfl
    · rw [if_neg hmem, List.filter_cons_of_pos (by simpa using hmem)]
      exact congrArg (odm :: ·) (ih out)

/-- What has failed is left in the answer. -/
theorem any_failed_deduplicate (existing : List Str) (odms : List Odm)
    (h : ∀ entry ∈ out, entry.failed = true → entry.id = none) :
    (deduplicate existing odms out).2.any Outcome.failed = out.any Outcome.failed := by
  induction odms generalizing out with
  | nil => rfl
  | cons odm odms ih =>
    rw [deduplicate]
    by_cases hmem : odm.hash ∈ existing
    · rw [if_pos hmem, ih fun entry hentry => h entry (List.mem_of_mem_filter hentry),
        Bool.eq_iff_iff, List.any_eq_true, List.any_eq_true]
      constructor
      · rintro ⟨entry, hentry, hfailed⟩
        exact ⟨entry, List.mem_of_mem_filter hentry, hfailed⟩
      · rintro ⟨entry, hentry, hfailed⟩
        refine ⟨entry, List.mem_filter.mpr ⟨hentry, ?_⟩, hfailed⟩
        simp [h entry hentry hfailed]
    · rw [if_neg hmem]
      exact ih h

theorem createHits_nil (b : Option Str) : createHits b [] = .ok [] := by
  cases b <;> rfl

/-- Whatever is created are the hits that are left, in some order. -/
theorem perm_of_createHits (hids : (odms.map Odm.id).Nodup) (h : createHits b odms = .ok created) :
    created.Perm odms := by
  unfold createHits at h
  split at h
  · cases h
    exact .refl _
  · next bundle hbundle =>
    obtain ⟨bundleId, -, hfind⟩ := Option.bind_eq_some_iff.mp hbundle
    have hmem := List.mem_of_find?_eq_some hfind
    dsimp only at h
    split_ifs at h with hchildren
    cases h
    have hbundleOnly : odms.filter (fun odm => !decide (odm.id ≠ bundle.id)) = [bundle] := by
      have hinj : Set.InjOn Odm.id {odm | odm ∈ odms} := List.inj_on_of_nodup_map hids
      have hsame : odms.filter (fun odm => !decide (odm.id ≠ bundle.id)) =
          odms.filter fun odm => decide (odm = bundle) := by
        refine List.filter_congr fun odm hodm => ?_
        rw [← decide_not, decide_eq_decide, not_not]
        exact ⟨fun heq => hinj hodm hmem heq, fun heq => heq ▸ rfl⟩
      rw [hsame]
      have hcount := List.count_eq_one_of_mem (List.Nodup.of_map _ hids) hmem
      have hreplicate := List.filter_eq (l := odms) bundle
      rw [hcount] at hreplicate
      simpa [eq_comm] using hreplicate
    have hperm := List.filter_append_perm (fun odm : Odm => decide (odm.id ≠ bundle.id)) odms
    rwa [hbundleOnly] at hperm

/-- A bundle needs another hit. -/
theorem createHits_isOk_iff : (∃ created, createHits b odms = .ok created) ↔
    ∀ odm ∈ odms, b = some odm.id → ∃ odm' ∈ odms, odm'.id ≠ odm.id := by
  unfold createHits
  cases hfind : b.bind fun bundleId => odms.find? (·.id = bundleId) with
  | none =>
    refine iff_of_true ⟨_, rfl⟩ fun odm hodm hb => ?_
    rw [hb, Option.bind_some, List.find?_eq_none] at hfind
    exact absurd (decide_eq_true rfl) (hfind odm hodm)
  | some bundle =>
    obtain ⟨bundleId, rfl, hfound⟩ := Option.bind_eq_some_iff.mp hfind
    have hmem := List.mem_of_find?_eq_some hfound
    have hid : bundle.id = bundleId := by simpa using List.find?_some hfound
    dsimp only
    constructor
    · rintro ⟨created, hcreated⟩ odm hodm hb
      split_ifs at hcreated with hchildren
      obtain ⟨odm', hodm'⟩ := List.exists_mem_of_ne_nil _ hchildren
      obtain ⟨hin, hne⟩ := List.mem_filter.mp hodm'
      refine ⟨odm', hin, ?_⟩
      rw [← Option.some.inj hb, ← hid]
      simpa using hne
    · intro h
      obtain ⟨odm', hin, hne⟩ := h bundle hmem (by rw [hid])
      have hchildren : odms.filter (fun odm => decide (odm.id ≠ bundle.id)) ≠ [] :=
        List.ne_nil_of_mem (List.mem_filter.mpr ⟨hin, by simpa using hne⟩)
      exact ⟨_, if_neg hchildren⟩

variable {search : Str → Option (Str → Bool)} {r : Ingested}

theorem createOneOrManyHits_nil (h : r.odms = []) (stored : List Str) :
    createOneOrManyHits search stored r =
      if r.out.any Outcome.failed = true then .error .badRequest else .ok [] := by
  unfold createOneOrManyHits
  rw [if_pos h, h, ← createHits_nil r.bundleId]
  rfl

theorem createOneOrManyHits_eq (h : r.odms ≠ []) (stored : List Str) :
    createOneOrManyHits search stored r =
      match existingHashes search stored (r.odms.map Odm.hash) with
      | none => .error .request
      | some existing =>
        if r.out.any Outcome.failed = true then .error .badRequest
        else createHits r.bundleId (missing Odm.hash existing r.odms) := by
  unfold createOneOrManyHits
  rw [if_neg h]
  cases existingHashes search stored (r.odms.map Odm.hash) with
  | none => rfl
  | some existing =>
    change (if (deduplicate existing r.odms r.out).2.any Outcome.failed = true then _ else
      createHits r.bundleId (deduplicate existing r.odms r.out).1) = _
    rw [deduplicate_eq, any_failed_deduplicate existing r.odms r.failures]

theorem OncePerHash.perm {hashes xs ys : List Str} (h : OncePerHash stored hashes xs)
    (hperm : xs.Perm ys) : OncePerHash stored hashes ys :=
  ⟨hperm.nodup_iff.mp h.once, fun x => by rw [← hperm.mem_iff, h.missing]⟩

/-- With hashes that are found, what is left over can be created where a bundle has a child. -/
theorem child_iff (hexisting : existing ⊆ stored)
    (hfound : ∀ h ∈ odms.map Odm.hash, h ∈ stored → h ∈ existing) :
    (∀ odm ∈ missing Odm.hash existing odms, b = some odm.id →
      ∃ odm' ∈ missing Odm.hash existing odms, odm'.id ≠ odm.id) ↔
    ∀ odm ∈ odms, b = some odm.id → odm.hash ∉ stored →
      ∃ odm' ∈ odms, odm'.id ≠ odm.id ∧ odm'.hash ∉ stored := by
  have hmissing (odm : Odm) :
      odm ∈ missing Odm.hash existing odms ↔ odm ∈ odms ∧ odm.hash ∉ stored := by
    rw [missing, List.mem_filter, decide_eq_true_eq]
    refine and_congr_right fun hodm => not_congr ⟨fun h => hexisting h, ?_⟩
    exact hfound _ (List.mem_map_of_mem hodm)
  constructor
  · intro h odm hodm hb hstored
    obtain ⟨odm', hodm', hne⟩ := h odm ((hmissing odm).mpr ⟨hodm, hstored⟩) hb
    obtain ⟨hin, hstored'⟩ := (hmissing odm').mp hodm'
    exact ⟨odm', hin, hne, hstored'⟩
  · intro h odm hodm hb
    obtain ⟨hin, hstored⟩ := (hmissing odm).mp hodm
    obtain ⟨odm', hin', hne, hstored'⟩ := h odm hin hb hstored
    exact ⟨odm', (hmissing odm').mpr ⟨hin', hstored'⟩, hne⟩

/-- A request is handled soundly exactly where it fits. -/
theorem ingestSound_iff (search : Str → Option (Str → Bool)) (stored : List Str) (r : Ingested) :
    IngestSound search stored r ↔ IngestFits search stored r := by
  cases hfailed : r.out.any Outcome.failed with
  | true =>
    refine iff_of_false ?_ fun h => ?_
    · rintro ⟨created, hcreate, -⟩
      by_cases hempty : r.odms = []
      · rw [createOneOrManyHits_nil hempty, if_pos hfailed] at hcreate
        cases hcreate
      · rw [createOneOrManyHits_eq hempty] at hcreate
        split at hcreate
        · cases hcreate
        · rw [if_pos hfailed] at hcreate
          cases hcreate
    · rw [h.converted] at hfailed
      cases hfailed
  | false =>
    have hok : ¬ r.out.any Outcome.failed = true := by simp [hfailed]
    by_cases hempty : r.odms = []
    · refine iff_of_true ?_ ⟨hfailed, fun h => absurd hempty h, fun odm hodm => ?_⟩
      · refine ⟨[], by rw [createOneOrManyHits_nil hempty, if_neg hok], by simp,
          ⟨by simp, by simp [hempty]⟩, fun r' hhashes hok' => ?_⟩
        have hempty' : r'.odms = [] := by simpa [hempty] using hhashes
        rw [createOneOrManyHits_nil hempty', if_neg (by simp [hok'])]
      · rw [hempty] at hodm
        cases hodm
    · cases hfirst : existingHashes search stored (r.odms.map Odm.hash) with
      | none =>
        refine iff_of_false ?_ fun h => ?_
        · rintro ⟨created, hcreate, -⟩
          rw [createOneOrManyHits_eq hempty, hfirst] at hcreate
          cases hcreate
        · obtain ⟨existing, hexisting, -⟩ := (h.fits hempty).found
          cases hfirst.symm.trans hexisting
      | some existing =>
        have hexisting := mem_of_existingHashes hfirst
        have hcreates : createOneOrManyHits search stored r =
            createHits r.bundleId (missing Odm.hash existing r.odms) := by
          rw [createOneOrManyHits_eq hempty, hfirst]
          exact if_neg hok
        have hids : ((missing Odm.hash existing r.odms).map Odm.id).Nodup :=
          r.distinct.sublist (List.filter_sublist.map _)
        constructor
        · rintro ⟨created, hcreate, -, honce, hagain⟩
          rw [hcreates] at hcreate
          have hperm := perm_of_createHits hids hcreate
          have hfits : Fits search stored (r.odms.map Odm.hash) := by
            refine (fits_iff hfirst).mpr ⟨honce.perm (hperm.map _), ?_⟩
            have hrun := hagain r rfl hfailed
            rw [createOneOrManyHits_eq hempty] at hrun
            rw [← existingHashes_congr ((hperm.map Odm.hash).append_left stored)]
            split at hrun
            · cases hrun
            · next again hexists =>
              rw [if_neg hok] at hrun
              have hids' : ((missing Odm.hash again r.odms).map Odm.id).Nodup :=
                r.distinct.sublist (List.filter_sublist.map _)
              exact ⟨again, hexists, List.nil_perm.mp (perm_of_createHits hids' hrun)⟩
          obtain ⟨existing', hfirst', hfound⟩ := hfits.found
          cases hfirst.symm.trans hfirst'
          exact ⟨hfailed, fun _ => hfits,
            (child_iff hexisting hfound).mp (createHits_isOk_iff.mp ⟨created, hcreate⟩)⟩
        · intro h
          obtain ⟨existing', hfirst', hfound⟩ := (h.fits hempty).found
          cases hfirst.symm.trans hfirst'
          obtain ⟨honce, again, hexists, hnil⟩ := (fits_iff hfirst).mp (h.fits hempty)
          obtain ⟨created, hcreate⟩ :=
            createHits_isOk_iff.mpr ((child_iff hexisting hfound).mpr h.child)
          have hperm := perm_of_createHits hids hcreate
          refine ⟨created, by rw [hcreates, hcreate], fun odm hodm => ?_,
            honce.perm (hperm.symm.map _), fun r' hhashes hok' => ?_⟩
          · exact List.mem_of_mem_filter (hperm.mem_iff.mp hodm)
          · have hempty' : r'.odms ≠ [] := by
              intro heq
              rw [heq, List.map_nil, eq_comm, List.map_eq_nil_iff] at hhashes
              exact hempty hhashes
            have hnil' : missing Odm.hash again r'.odms = [] := by
              rw [missing_eq_nil_iff, hhashes]
              exact missing_eq_nil_iff.mp hnil
            rw [createOneOrManyHits_eq hempty', hhashes,
              existingHashes_congr ((hperm.map Odm.hash).append_left stored), hexists]
            dsimp only
            rw [if_neg (by simp [hok']), hnil', createHits_nil]

end Ingest

/-- Hits are posted and created once for each hash that is not stored exactly where the hashes fit,
and hits with the same contents have the same hash. -/
theorem deduplicated_iff (client : Client) (search : Str → Option (Str → Bool)) :
    (∀ stored data, CreateSound client stored data ↔ CreateFits client stored data) ∧
      (∀ stored r, IngestSound search stored r ↔ IngestFits search stored r) ∧
      HashesAlike client :=
  ⟨createSound_iff client, ingestSound_iff search, hashesAlike client⟩

/-- A client of a search that knows one hash. -/
def plainClient : Client where
  sha256 s := s
  repr _ := []
  search _ := some fun h => decide (h = "ab".toList)

/-- A hit with a given hash. -/
def duplicate : Submitted where
  fields := [("howler.analytic".toList, .leaf (.str "Password Checker".toList)),
    ("howler.hash".toList, .leaf (.str "ab".toList))]
  unique := .obj (by decide) (by simp [Structures.Tree.Unique.leaf])

/-- A hit that stands twice in the list is posted twice. -/
theorem create_posts_duplicates : ¬ CreateSound plainClient [] [duplicate, duplicate] := by
  rintro ⟨hits, posted, -, hcreate, -, honce, -⟩
  have hposted : create plainClient [] [duplicate, duplicate] =
      .ok [duplicate.fields, duplicate.fields] := by rfl
  cases hcreate.symm.trans hposted
  exact absurd honce.once (by decide)

end Howler.Ingestion
