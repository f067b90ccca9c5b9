import Howler.Bundles.Placement

namespace Howler.Bundles

open Python Structures Cases Systems.Prog

/-- An id that has been drawn since. -/
def DrawnSince (w w' : World) (id : Str) : Prop := ∃ n, w.nextUid ≤ n ∧ n < w'.nextUid ∧ id = w.uids n

/-- The store while the case of a new bundle is filled. -/
structure Building (w : World) (b k : Str) (c : Case) (w' : World) : Prop where
  caseId : c.caseId = k
  cases : w'.cases = Function.update w.cases k (some c)
  frame : Frame w w'
  case : DrawnSince w w' k
  bundle : w.records .hit b ≠ none ∨ DrawnSince w w' b
  kept : ∀ h r, w.records .hit h = some r →
    ∃ r', w'.records .hit h = some r' ∧ r.related ⊆ r'.related
  known : ∀ h r', w'.records .hit h = some r' → w.records .hit h ≠ none ∨ h = b
  hits : ∀ r', w'.records .hit hitsName = some r' → ∀ x ∈ r'.related,
    (∃ r, w.records .hit hitsName = some r ∧ x ∈ r.related) ∨ x = k ∧ b = hitsName
  ids : ∀ i ∈ c.items, DrawnSince w w' i.id
  referred : ∀ i ∈ c.items, i.type = .hit →
    ∃ r', w'.records .hit i.value = some r' ∧ k ∈ r'.related

section Building

variable {w w₁ w₂ : World} {b k v : Str} {c c' : Case} {cs : List Str} {L : Legacy} {es : Elastic}

theorem DrawnSince.mono {id : Str} (h : DrawnSince w w₁ id) (hle : w₁.nextUid ≤ w₂.nextUid) :
    DrawnSince w w₂ id := by
  obtain ⟨n, hn, hlt, rfl⟩ := h
  exact ⟨n, hn, by omega, rfl⟩

/-- An id that was drawn is none of the ids to come. -/
theorem DrawnSince.ne {id : Str} (h : DrawnSince w w₁ id) (huids : Function.Injective w.uids) {n : ℕ}
    (hn : w₁.nextUid ≤ n) : id ≠ w.uids n := by
  obtain ⟨m, -, hlt, rfl⟩ := h
  exact fun heq => by have := huids heq; omega

theorem Building.get (h : Building w b k c w₁) : w₁.cases k = some c := by
  rw [h.cases, Function.update_self]

theorem Building.get_of_ne (h : Building w b k c w₁) {k' : Str} (hk : k' ≠ k) :
    w₁.cases k' = w.cases k' := by
  rw [h.cases, Function.update_of_ne hk]

/-- The next id is that of no item of the case. -/
theorem Building.newId (h : Building w b k c w₁) (huids : Function.Injective w.uids) :
    ∀ j ∈ c.items, j.id ≠ w₁.uids w₁.nextUid := by
  intro j hj
  rw [h.frame.uids]
  exact (h.ids j hj).ne huids le_rfl

/-- An id is drawn for nothing. -/
theorem Building.draw (h : Building w b k c w₁) : Building w b k c (w₁.atUid (w₁.nextUid + 1)) := by
  have hle : w₁.nextUid ≤ (w₁.atUid (w₁.nextUid + 1)).nextUid := Nat.le_succ _
  refine ⟨h.caseId, h.cases, ?_, h.case.mono hle, h.bundle.imp_right fun hb => hb.mono hle, h.kept,
    h.known, h.hits, fun i hi => (h.ids i hi).mono hle, h.referred⟩
  exact h.frame.trans ⟨rfl, rfl, hle, fun hk => ⟨hk.cases, hk.records⟩⟩

/-- A hit is appended to the case. -/
theorem Building.append (h : Building w b k c w₁) {parent : Option Str} {r : Record}
    (hr : w₁.records .hit v = some r) (ha : Appends v parent r c w₁ c' w₂)
    (hname : v = hitsName → b = hitsName) : Building w b k c' w₂ := by
  obtain ⟨i, hitems, htype, hvalue, -, hid⟩ := ha.items
  have hle : w₁.nextUid ≤ w₂.nextUid := ha.frame.nextUid
  have hgrows : ∀ x rx, w₁.records .hit x = some rx →
      ∃ rx', w₂.records .hit x = some rx' ∧ rx.related ⊆ rx'.related := by
    intro x rx hx
    rw [ha.records]
    split
    · next heq =>
      obtain rfl : r = rx := by
        rw [heq, hr] at hx
        exact Option.some.inj hx
      exact ⟨_, rfl, fun y hy => mem_addBackreference.mpr (.inl hy)⟩
    · exact ⟨rx, hx, fun y hy => hy⟩
  refine ⟨ha.caseId.trans h.caseId, ?_, h.frame.trans ha.frame, h.case.mono hle,
    h.bundle.imp_right fun hb => hb.mono hle, fun x rx hx => ?_, fun x rx hx => ?_,
    fun rx hx y hy => ?_, fun j hj => ?_, fun j hj hjtype => ?_⟩
  · rw [ha.cases, h.cases, h.caseId, Function.update_idem]
  · obtain ⟨r₁, hr₁, hsub⟩ := h.kept x rx hx
    obtain ⟨r₂, hr₂, hsub'⟩ := hgrows x r₁ hr₁
    exact ⟨r₂, hr₂, fun y hy => hsub' (hsub hy)⟩
  · rw [ha.records] at hx
    split at hx
    · next heq =>
      rw [heq]
      exact h.known v r hr
    · exact h.known x rx hx
  · rw [ha.records] at hx
    split at hx
    · next heq =>
      obtain rfl := Option.some.inj hx
      rw [← heq] at hr
      rcases mem_addBackreference.mp hy with hy | hy
      · exact h.hits r hr y hy
      · exact .inr ⟨hy.trans h.caseId, hname heq.symm⟩
    · exact h.hits rx hx y hy
  · rw [hitems] at hj
    rcases List.mem_append.mp hj with hj | hj
    · exact (h.ids j hj).mono hle
    · rw [List.mem_singleton.mp hj, hid, h.frame.uids]
      have hnext := ha.nextUid
      exact ⟨w₁.nextUid, h.frame.nextUid, by omega, rfl⟩
  · rw [hitems] at hj
    rcases List.mem_append.mp hj with hj | hj
    · obtain ⟨r₁, hr₁, hk⟩ := h.referred j hj hjtype
      obtain ⟨r₂, hr₂, hsub⟩ := hgrows _ r₁ hr₁
      exact ⟨r₂, hr₂, hsub hk⟩
    · rw [List.mem_singleton.mp hj, hvalue, ha.records, if_pos rfl]
      exact ⟨_, rfl, mem_addBackreference.mpr (.inr h.caseId.symm)⟩

/-- The case with its folder. -/
def withFolder (w : World) (c : Case) : Case :=
  { c with items := c.items ++ [newFolder (w.uids w.nextUid) hitsName none] }

theorem isFolder_newFolder (id : Str) : IsFolder (newFolder id hitsName none) := ⟨rfl, rfl, rfl⟩

/-- The folder of the children is created. -/
theorem Building.addFolder (h : Building w b k c w₁) :
    Building w b k (withFolder w₁ c)
      ((w₁.atUid (w₁.nextUid + 1)).wrote.setCase (withFolder w₁ c)) := by
  have hle : w₁.nextUid ≤ ((w₁.atUid (w₁.nextUid + 1)).wrote.setCase (withFolder w₁ c)).nextUid :=
    Nat.le_succ _
  have hframe : Frame w₁ ((w₁.atUid (w₁.nextUid + 1)).wrote.setCase (withFolder w₁ c)) :=
    ⟨rfl, rfl, hle, fun hk => World.Keyed.setCase ⟨hk.cases, hk.records⟩⟩
  refine ⟨h.caseId, ?_, h.frame.trans hframe, h.case.mono hle,
    h.bundle.imp_right fun hb => hb.mono hle, h.kept, h.known, h.hits, fun j hj => ?_,
    fun j hj hjtype => ?_⟩
  · change Function.update w₁.cases c.caseId (some (withFolder w₁ c)) = _
    rw [h.cases, h.caseId, Function.update_idem]
  · rcases List.mem_append.mp hj with hj | hj
    · exact (h.ids j hj).mono hle
    · rw [List.mem_singleton.mp hj]
      exact ⟨w₁.nextUid, h.frame.nextUid, Nat.lt_succ_self _, congrFun h.frame.uids _⟩
  · rcases List.mem_append.mp hj with hj | hj
    · exact h.referred j hj hjtype
    · rw [List.mem_singleton.mp hj] at hjtype
      cases hjtype

/-- A new case without items. -/
def emptyCase (w : World) (data : Case) (user : Option Str) : Case :=
  newCase data (w.uids w.nextUid) w.time user

variable (es) in
theorem run_createCase_empty (hs : w.Sound) (hnew : w.cases (w.uids w.nextUid) = none) (data : Case)
    (user : Option Str) : (createCase data [] user).run (handle es) w =
      (.ok (emptyCase w data user),
        (w.atUid (w.nextUid + 1)).wrote.setCase (emptyCase w data user)) := by
  have hs' : (w.atUid (w.nextUid + 1)).Sound := hs
  have hcreate : (createNewCase (emptyCase w data user)).run (handle es) (w.atUid (w.nextUid + 1)) =
      (.ok (), (w.atUid (w.nextUid + 1)).wrote.setCase (emptyCase w data user)) := by
    rw [run_createNewCase]
    have hnone : (w.atUid (w.nextUid + 1)).cases (emptyCase w data user).caseId = none := hnew
    rw [hnone]
    exact write_sound hs' _
  rw [createCase, run_bind_ok (run_randomId es w), run_bind_ok (run_now es _)]
  exact run_bind_ok hcreate _

/-- The case of a hit is created. -/
theorem building_start (hb : w.records .hit b ≠ none) (data : Case)
    (user : Option Str) : Building w b (w.uids w.nextUid) (emptyCase w data user)
      ((w.atUid (w.nextUid + 1)).wrote.setCase (emptyCase w data user)) := by
  refine ⟨rfl, rfl, ⟨rfl, rfl, Nat.le_succ _, fun hk => ?_⟩, ⟨w.nextUid, le_rfl, Nat.lt_succ_self _, rfl⟩,
    .inl hb, fun h r hr => ⟨r, hr, fun x hx => hx⟩, fun h r' hr => .inl ?_,
    fun r' hr x hx => .inl ⟨r', hr, hx⟩, fun i hi => (nomatch hi), fun i hi => (nomatch hi)⟩
  · exact World.Keyed.setCase ⟨hk.cases, hk.records⟩
  · change w.records .hit h = some r' at hr
    rw [hr]
    exact Option.some_ne_none r'

/-- The store with a new hit. -/
def withHit (w : World) (r : Record) : World :=
  (w.atUid (w.nextUid + 1)).wrote.setRecord .hit { r with id := w.uids w.nextUid }

theorem withHit_records (w : World) (r : Record) (h : Str) : (withHit w r).records .hit h =
    if h = w.uids w.nextUid then some { r with id := w.uids w.nextUid } else w.records .hit h := by
  rw [withHit, World.setRecord_records]
  simp only [true_and]
  rfl

/-- The ids are still new after a hit is created. -/
theorem freshIds_withHit (hnew : FreshIds w) (r : Record) : FreshIds (withHit w r) := by
  have hle : w.nextUid ≤ w.nextUid + 1 := Nat.le_succ _
  refine ⟨hnew.injective, fun n hn => hnew.case n (hle.trans hn), fun n hn => ?_,
    fun n hn => hnew.item n (hle.trans hn), fun n hn r' hr => ?_, hnew.nonempty, hnew.name⟩
  · rw [withHit_records, if_neg fun heq => ?_]
    · exact hnew.hit n (hle.trans hn)
    · have hsame : n = w.nextUid := hnew.injective heq
      have hn' : w.nextUid + 1 ≤ n := hn
      omega
  · rw [withHit_records, if_neg fun heq => hnew.name _ heq.symm] at hr
    exact hnew.related n (hle.trans hn) r' hr

/-- A hit and its case are created. -/
theorem building_create (hnew : FreshIds w) (r : Record) (data : Case) (user : Option Str) :
    Building w (w.uids w.nextUid) (w.uids (w.nextUid + 1)) (emptyCase (withHit w r) data user)
      (((withHit w r).atUid (w.nextUid + 2)).wrote.setCase (emptyCase (withHit w r) data user)) := by
  refine ⟨rfl, rfl, ⟨rfl, rfl, by simp [World.wrote, World.setCase], fun hk => ?_⟩,
    ⟨w.nextUid + 1, Nat.le_succ _, Nat.lt_succ_self _, rfl⟩,
    .inr ⟨w.nextUid, le_rfl, by simp [World.wrote, World.setCase], rfl⟩, fun h r' hr => ?_,
    fun h r' hr => ?_, fun r' hr x hx => ?_, fun i hi => (nomatch hi), fun i hi => (nomatch hi)⟩
  · have hk' : (withHit w r).Keyed :=
      World.Keyed.setRecord (⟨hk.cases, hk.records⟩ : ((w.atUid (w.nextUid + 1)).wrote).Keyed)
    exact World.Keyed.setCase ⟨hk'.cases, hk'.records⟩
  · have hne : h ≠ w.uids w.nextUid := by
      intro heq
      rw [heq, hnew.hit _ le_rfl] at hr
      cases hr
    refine ⟨r', ?_, fun x hx => hx⟩
    change (withHit w r).records .hit h = some r'
    rw [withHit_records, if_neg hne, hr]
  · change (withHit w r).records .hit h = some r' at hr
    rw [withHit_records] at hr
    split at hr
    · next heq => exact .inr heq
    · exact .inl (by simp [hr])
  · change (withHit w r).records .hit hitsName = some r' at hr
    rw [withHit_records, if_neg fun heq => hnew.name _ heq.symm] at hr
    exact .inl ⟨r', hr, hx⟩

/-- A case that is filled stands for a bundle. -/
theorem Building.refines (h : Building w b k c w₁) (hw : Refines w L) (hL : L b = none)
    (hp : Placed c.items b cs) : Refines w₁ (Function.update L b (some cs)) := by
  have hfreshk : w.cases k = none := by
    obtain ⟨n, hn, -, rfl⟩ := h.case
    exact hw.fresh.case n hn
  have hother {k' : Str} {c' : Case} (hc' : w.cases k' = some c') : k' ≠ k := by
    intro heq
    rw [heq, hfreshk] at hc'
    cases hc'
  have hcases {k' : Str} {c' : Case} (hc' : w₁.cases k' = some c') :
      k' = k ∧ c' = c ∨ k' ≠ k ∧ w.cases k' = some c' := by
    by_cases hk : k' = k
    · rw [hk, h.get] at hc'
      exact .inl ⟨hk, (Option.some.inj hc').symm⟩
    · rw [h.get_of_ne hk] at hc'
      exact .inr ⟨hk, hc'⟩
  -- no other case is placed for the same bundle
  have hnot {k' : Str} {c' : Case} {cs' : List Str} (hc' : w.cases k' = some c')
      (hp' : Placed c'.items b cs') : False := by
    obtain ⟨b', cs'', -, hp'', hL', -⟩ := hw.placed k' c' hc'
    obtain ⟨rfl, -⟩ := hp'.unique hp''
    rw [hL] at hL'
    cases hL'
  have huids (n : ℕ) : w₁.uids n = w.uids n := congrFun h.frame.uids n
  have hle := h.frame.nextUid
  refine ⟨h.frame.keyed hw.keyed, h.frame.sound hw.sound, fun k' c' hc' => ?_,
    fun b' cs' hL' => ?_, fun k₁ k₂ c₁ c₂ b' cs₁ cs₂ hc₁ hc₂ hp₁ hp₂ => ?_,
    fun r k' c' b' cs' hr hk' hc' hp' => ?_, ?_, ?_⟩
  · rcases hcases hc' with ⟨rfl, rfl⟩ | ⟨hk, hc'⟩
    · obtain ⟨i, hi, htype, hvalue, -⟩ := hp.root
      obtain ⟨r, hr, hk⟩ := h.referred i hi htype
      exact ⟨b, cs, r, hp, Function.update_self .., hvalue ▸ hr, hk⟩
    · obtain ⟨b', cs', r, hp', hL', hr, hkr⟩ := hw.placed k' c' hc'
      have hb : b' ≠ b := fun heq => by
        rw [heq, hL] at hL'
        cases hL'
      obtain ⟨r', hr', hsub⟩ := h.kept b' r hr
      exact ⟨b', cs', r', hp', by rw [Function.update_of_ne hb, hL'], hr', hsub hkr⟩
  · by_cases hb : b' = b
    · subst hb
      rw [Function.update_self] at hL'
      cases hL'
      exact ⟨k, c, h.get, hp⟩
    · rw [Function.update_of_ne hb] at hL'
      obtain ⟨k', c', hc', hp'⟩ := hw.bundle b' cs' hL'
      exact ⟨k', c', by rw [h.get_of_ne (hother hc'), hc'], hp'⟩
  · rcases hcases hc₁ with ⟨rfl, rfl⟩ | ⟨-, hc₁⟩
    · obtain ⟨rfl, -⟩ := hp₁.unique hp
      rcases hcases hc₂ with ⟨rfl, rfl⟩ | ⟨-, hc₂⟩
      · rfl
      · exact (hnot hc₂ hp₂).elim
    · rcases hcases hc₂ with ⟨rfl, rfl⟩ | ⟨-, hc₂⟩
      · obtain ⟨rfl, -⟩ := hp₂.unique hp
        exact (hnot hc₁ hp₁).elim
      · exact hw.one k₁ k₂ c₁ c₂ b' cs₁ cs₂ hc₁ hc₂ hp₁ hp₂
  · rcases hcases hc' with ⟨rfl, rfl⟩ | ⟨hk, hc'⟩
    · obtain ⟨rfl, -⟩ := hp'.unique hp
      rcases h.hits r hr _ hk' with ⟨r₀, hr₀, hmem⟩ | ⟨-, hname⟩
      · obtain ⟨n, hn, -, heq⟩ := h.case
        exact absurd (heq ▸ hmem) (hw.fresh.related n hn r₀ hr₀)
      · exact hname
    · rcases h.hits r hr _ hk' with ⟨r₀, hr₀, hmem⟩ | ⟨heq, -⟩
      · exact hw.hits r₀ k' c' b' cs' hr₀ hmem hc' hp'
      · exact absurd heq hk
  · refine ⟨?_, fun n hn => ?_, fun n hn => ?_, fun n hn k' c' hc' i hi => ?_, fun n hn r hr => ?_,
      fun n => huids n ▸ hw.fresh.nonempty n, fun n => huids n ▸ hw.fresh.name n⟩
    · rw [h.frame.uids]
      exact hw.fresh.injective
    · rw [huids, h.get_of_ne fun heq => h.case.ne hw.fresh.injective hn heq.symm]
      exact hw.fresh.case n (hle.trans hn)
    · rw [huids]
      cases hr : w₁.records .hit (w.uids n) with
      | none => rfl
      | some r =>
        have hnone := hw.fresh.hit n (hle.trans hn)
        rcases h.known _ r hr with hsome | heq
        · exact absurd hnone hsome
        · rcases h.bundle with hsome | hdrawn
          · rw [← heq] at hsome
            exact absurd hnone hsome
          · exact absurd heq.symm (hdrawn.ne hw.fresh.injective hn)
    · rw [huids]
      rcases hcases hc' with ⟨-, rfl⟩ | ⟨-, hc'⟩
      · exact (h.ids i hi).ne hw.fresh.injective hn
      · exact hw.fresh.item n (hle.trans hn) k' c' hc' i hi
    · rw [huids]
      intro hmem
      rcases h.hits r hr _ hmem with ⟨r₀, hr₀, hmem₀⟩ | ⟨heq, -⟩
      · exact hw.fresh.related n (hle.trans hn) r₀ hr₀ hmem₀
      · exact h.case.ne hw.fresh.injective hn heq.symm
  · cases hr : w₁.records .hit [] with
    | none => rfl
    | some r =>
      rcases h.known _ r hr with hsome | heq
      · exact absurd hw.nonempty hsome
      · rcases h.bundle with hsome | ⟨n, -, -, hid⟩
        · rw [← heq] at hsome
          exact absurd hw.nonempty hsome
        · exact absurd (hid.symm.trans heq.symm) (hw.fresh.nonempty n)

end Building

end Howler.Bundles
