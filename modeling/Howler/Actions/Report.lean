import Howler.Python.Raising
import Howler.Python.Separators
import Howler.Structures.Grouping

namespace Howler.Actions

open Python Structures

/-- An entry of the report of an operation. -/
structure ReportEntry where
  query : Str
  outcome : Str
  title : Str
  message : Str
  deriving DecidableEq, Repr

/-- What the entries are merged by. -/
def ReportEntry.triple (e : ReportEntry) : Str × Str × Str := (e.title, e.message, e.outcome)

/-- What unpacking a key into three names raises. -/
inductive ReportError where
  | valueError
  deriving DecidableEq, Repr

def separator : Str := "===".toList

/-- `f"{title}==={message}==={outcome}"`. -/
def packed (t : Str × Str × Str) : Str := t.1 ++ separator ++ t.2.1 ++ separator ++ t.2.2

def reportKey (e : ReportEntry) : Str := packed e.triple

/-- `f"({query})"`. -/
def parenthesised (e : ReportEntry) : Str := "(".toList ++ e.query ++ ")".toList

/-- One entry of the concise report. -/
def sanitizeEntry (item : Str × List Str) : Except ReportError ReportEntry :=
  match splitOnStr separator item.1 with
  | [title, message, outcome] =>
    .ok { query := join " OR ".toList item.2, outcome := outcome, title := title,
          message := message }
  | _ => .error .valueError

/-- `__sanitize_report`. -/
def sanitizeReport (report : List ReportEntry) : Except ReportError (List ReportEntry) :=
  (group reportKey parenthesised report).mapM sanitizeEntry

section Separator

/-- Text that keeps its place before a separator: none occurs in it, and it does not end with a
character that one starts with. -/
def Separable (s : Str) : Prop := ¬ separator <:+: s ∧ s.getLast? ≠ some '='

instance (s : Str) : Decidable (Separable s) :=
  inferInstanceAs (Decidable (¬ separator <:+: s ∧ s.getLast? ≠ some '='))

theorem getLast?_drop {s : Str} {i : ℕ} (h : i < s.length) :
    (s.drop i).getLast? = s.getLast? := by
  rw [List.getLast?_drop, if_neg (by omega)]

/-- In text before a separator none starts. -/
theorem Separable.first {s y : Str} (h : Separable s) :
    ∀ i < s.length, ¬ separator <+: s.drop i ++ separator ++ y := by
  intro i hi hp
  have hlast := getLast?_drop hi
  have hrest : s.drop i <:+ s := List.drop_suffix i s
  generalize s.drop i = d at hp hlast hrest
  have hsep : separator = ['=', '=', '='] := rfl
  have hne : d.getLast? ≠ some '=' := hlast ▸ h.2
  rcases d with - | ⟨a, - | ⟨b, - | ⟨c, d⟩⟩⟩
  · rw [List.getLast?_nil] at hlast
    rw [List.getLast?_eq_none_iff.mp hlast.symm] at hi
    simp at hi
  · have ha : a = '=' := by
      rw [hsep] at hp
      exact (List.cons_prefix_cons.mp hp).1.symm
    simp [ha] at hne
  · have hb : b = '=' := by
      rw [hsep] at hp
      exact (List.cons_prefix_cons.mp (List.cons_prefix_cons.mp hp).2).1.symm
    simp [hb] at hne
  · have hin : separator <+: a :: b :: c :: d := by
      rw [hsep] at hp ⊢
      simpa using hp
    exact h.1 (hin.isInfix.trans hrest.isInfix)

/-- Text in which no separator starts before the next one is separable. -/
theorem separable_of_first {s y : Str}
    (h : ∀ i < s.length, ¬ separator <+: s.drop i ++ separator ++ y) : Separable s := by
  constructor
  · rintro ⟨p, q, hs⟩
    have hi : p.length < s.length := by
      rw [← hs]
      simp [separator]
    refine h p.length hi ⟨q ++ separator ++ y, ?_⟩
    rw [← hs]
    simp
  · intro hlast
    obtain ⟨p, hs⟩ := List.getLast?_eq_some_iff.mp hlast
    have hi : p.length < s.length := by
      rw [hs]
      simp
    refine h p.length hi ⟨'=' :: y, ?_⟩
    rw [hs]
    simp [separator]

/-- A packed triple is unpacked exactly where its first two texts are separable and the last one
has no separator. -/
theorem split_packed_iff (t : Str × Str × Str) :
    splitOnStr separator (packed t) = [t.1, t.2.1, t.2.2] ↔
      Separable t.1 ∧ Separable t.2.1 ∧ ¬ separator <:+: t.2.2 := by
  obtain ⟨title, message, outcome⟩ := t
  have hne : separator ≠ [] := by decide
  have hassoc : packed (title, message, outcome) =
      title ++ separator ++ (message ++ separator ++ outcome) := by simp [packed]
  rw [hassoc]
  constructor
  · intro h
    rcases splitOnStr_cases hne (title ++ separator ++ (message ++ separator ++ outcome)) with
      ⟨hone, -⟩ | ⟨x, y, hs, hsplit, hfirst⟩
    · rw [hone] at h
      simp at h
    · rw [hsplit] at h
      obtain ⟨rfl, hy⟩ := List.cons.inj h
      have htail : message ++ separator ++ outcome = y := by simpa using hs
      subst htail
      rcases splitOnStr_cases hne (message ++ separator ++ outcome) with
        ⟨hone, -⟩ | ⟨x', y', hs', hsplit', hfirst'⟩
      · rw [hone] at hy
        simp at hy
      · rw [hsplit'] at hy
        obtain ⟨rfl, hy'⟩ := List.cons.inj hy
        have htail' : outcome = y' := by simpa using hs'
        subst htail'
        refine ⟨separable_of_first hfirst, separable_of_first hfirst', fun hin => ?_⟩
        rcases splitOnStr_cases hne outcome with ⟨-, habsent⟩ | ⟨x'', y'', -, hsplit'', -⟩
        · exact habsent hin
        · rw [hsplit''] at hy'
          simp [splitOnStr_ne_nil] at hy'
  · rintro ⟨htitle, hmessage, houtcome⟩
    rw [splitOnStr_append hne htitle.first, splitOnStr_append hne hmessage.first,
      splitOnStr_of_absent houtcome]

theorem packed_of_split {k title message outcome : Str}
    (h : splitOnStr separator k = [title, message, outcome]) :
    packed (title, message, outcome) = k := by
  have hne : separator ≠ [] := by decide
  have hjoin := join_splitOnStr hne k
  rw [h] at hjoin
  rw [← hjoin]
  simp [packed, join]

end Separator

/-- The report is merged by title, message and outcome: one entry for each triple, with the
queries of all entries that have it. -/
def Merged (report out : List ReportEntry) : Prop :=
  (out.map ReportEntry.triple).Nodup ∧
    (∀ t, t ∈ out.map ReportEntry.triple ↔ t ∈ report.map ReportEntry.triple) ∧
    ∀ e ∈ out, e.query = join " OR ".toList
      ((report.filter fun x => x.triple = e.triple).map parenthesised)

section Sanitize

variable {report out : List ReportEntry}

theorem sanitizeEntry_ok {item : Str × List Str} {e : ReportEntry}
    (h : sanitizeEntry item = .ok e) :
    splitOnStr separator item.1 = [e.title, e.message, e.outcome] ∧
      e.query = join " OR ".toList item.2 := by
  unfold sanitizeEntry at h
  split at h
  case h_1 title message outcome hsplit =>
    cases h
    exact ⟨hsplit, rfl⟩
  case h_2 => cases h

theorem sanitizeEntry_of_split {item : Str × List Str} {title message outcome : Str}
    (h : splitOnStr separator item.1 = [title, message, outcome]) :
    sanitizeEntry item = .ok { query := join " OR ".toList item.2, outcome := outcome,
                               title := title, message := message } := by
  rw [sanitizeEntry, h]

/-- The key of an entry of the concise report is its three texts packed again. -/
theorem packed_triple_of_ok {item : Str × List Str} {e : ReportEntry}
    (h : sanitizeEntry item = .ok e) : packed e.triple = item.1 :=
  packed_of_split (sanitizeEntry_ok h).1

/-- The entries of the concise report stand in the order of the groups. -/
theorem map_packed_sanitizeReport (h : sanitizeReport report = .ok out) :
    (out.map ReportEntry.triple).map packed =
      Dict.keys (group reportKey parenthesised report) := by
  rw [List.map_map]
  exact map_of_mapM_ok h fun item e hok => packed_triple_of_ok hok

/-- No two entries of the concise report have the same three texts. -/
theorem nodup_triples (h : sanitizeReport report = .ok out) :
    (out.map ReportEntry.triple).Nodup := by
  have hnodup : ((out.map ReportEntry.triple).map packed).Nodup :=
    map_packed_sanitizeReport h ▸ nodup_keys_group report
  exact hnodup.of_map _

/-- An entry of the concise report is that of a group. -/
theorem origin_of_mem (h : sanitizeReport report = .ok out) {o : ReportEntry} (ho : o ∈ out) :
    ∃ e ∈ report, splitOnStr separator (reportKey e) = [o.title, o.message, o.outcome] ∧
      o.query = join " OR ".toList
        ((report.filter fun a => reportKey a = reportKey e).map parenthesised) := by
  obtain ⟨⟨k, values⟩, hitem, hok⟩ := (mem_of_mapM_ok h o).mp ho
  obtain ⟨hparts, hquery⟩ := sanitizeEntry_ok hok
  obtain ⟨e, he, rfl⟩ := mem_keys_group.mp (List.mem_map_of_mem (f := Prod.fst) hitem)
  have hvalues := values_of_mem_group hitem
  exact ⟨e, he, hparts, hvalues ▸ hquery⟩

/-- Where every key is unpacked into the texts it was made of, a report has its concise one. -/
theorem exists_sanitizeReport (hsplit : ∀ e ∈ report,
    splitOnStr separator (reportKey e) = [e.title, e.message, e.outcome]) :
    ∃ out, sanitizeReport report = .ok out := by
  apply exists_mapM_ok
  intro item hitem
  obtain ⟨e, he, hkey⟩ := mem_keys_group.mp (List.mem_map_of_mem (f := Prod.fst) hitem)
  have hparts := hsplit e he
  rw [hkey] at hparts
  exact ⟨_, sanitizeEntry_of_split hparts⟩

theorem triple_inj {e : ReportEntry} {title message outcome : Str} :
    e.triple = (title, message, outcome) ↔
      [e.title, e.message, e.outcome] = [title, message, outcome] := by
  simp [ReportEntry.triple]

/-- Where every key is unpacked into the texts it was made of, the concise report is the merged
one. -/
theorem merged_of_split (hsplit : ∀ e ∈ report,
      splitOnStr separator (reportKey e) = [e.title, e.message, e.outcome])
    (hout : sanitizeReport report = .ok out) : Merged report out := by
  have hkey : ∀ e ∈ report, ∀ e' ∈ report, reportKey e = reportKey e' ↔ e.triple = e'.triple := by
    intro e he e' he'
    refine ⟨fun h => ?_, fun h => congrArg packed h⟩
    have hparts := hsplit e he
    rw [h, hsplit e' he'] at hparts
    exact triple_inj.mpr hparts.symm
  have horigin : ∀ o ∈ out, ∃ e ∈ report, o.triple = e.triple ∧
      o.query = join " OR ".toList
        ((report.filter fun a => reportKey a = reportKey e).map parenthesised) := by
    intro o ho
    obtain ⟨e, he, hparts, hquery⟩ := origin_of_mem hout ho
    have htriple : o.triple = e.triple := triple_inj.mpr (hparts.symm.trans (hsplit e he))
    exact ⟨e, he, htriple, hquery⟩
  refine ⟨nodup_triples hout, fun t => ⟨fun ht => ?_, fun ht => ?_⟩, fun o ho => ?_⟩
  · obtain ⟨o, ho, rfl⟩ := List.mem_map.mp ht
    obtain ⟨e, he, htriple, -⟩ := horigin o ho
    exact htriple ▸ List.mem_map_of_mem he
  · obtain ⟨e, he, rfl⟩ := List.mem_map.mp ht
    have hk : reportKey e ∈ Dict.keys (group reportKey parenthesised report) :=
      mem_keys_group.mpr ⟨e, he, rfl⟩
    rw [← map_packed_sanitizeReport hout] at hk
    obtain ⟨t, ht, hpacked⟩ := List.mem_map.mp hk
    obtain ⟨o, ho, rfl⟩ := List.mem_map.mp ht
    obtain ⟨e', he', htriple, -⟩ := horigin o ho
    have hsame : reportKey e' = reportKey e := by
      rw [← hpacked, htriple]
      rfl
    rw [← (hkey e' he' e he).mp hsame, ← htriple]
    exact List.mem_map_of_mem ho
  · obtain ⟨e, he, htriple, hquery⟩ := horigin o ho
    rw [hquery, htriple]
    congr 2
    apply List.filter_congr
    intro a ha
    rw [decide_eq_decide]
    exact hkey a ha e he

/-- Where the concise report is the merged one, every key is unpacked into the texts it was made
of. -/
theorem split_of_merged (hout : sanitizeReport report = .ok out) (hmerged : Merged report out)
    {e : ReportEntry} (he : e ∈ report) :
    splitOnStr separator (reportKey e) = [e.title, e.message, e.outcome] := by
  have ht := (hmerged.2.1 e.triple).mpr (List.mem_map_of_mem he)
  obtain ⟨o, ho, htriple⟩ := List.mem_map.mp ht
  obtain ⟨e', -, hparts, -⟩ := origin_of_mem hout ho
  have hkey : reportKey e' = reportKey e := by
    have hpacked := packed_of_split hparts
    rw [← hpacked, reportKey, ← htriple]
    rfl
  rw [← hkey, hparts]
  exact triple_inj.mp htriple

end Sanitize

/-- The report comes back merged. -/
def Merges (report : List ReportEntry) : Prop :=
  ∃ out, sanitizeReport report = .ok out ∧ Merged report out

theorem merges_iff_split (report : List ReportEntry) :
    Merges report ↔ ∀ e ∈ report,
      splitOnStr separator (reportKey e) = [e.title, e.message, e.outcome] := by
  constructor
  · rintro ⟨out, hout, hmerged⟩ e he
    exact split_of_merged hout hmerged he
  · intro hsplit
    obtain ⟨out, hout⟩ := exists_sanitizeReport hsplit
    exact ⟨out, hout, merged_of_split hsplit hout⟩

/-- The concise report is the merged one exactly where in every entry the separator occurs in none
of the three texts and neither the title nor the message ends in an equals sign. -/
theorem sanitizeReport_iff (report : List ReportEntry) :
    Merges report ↔ ∀ e ∈ report,
      Separable e.title ∧ Separable e.message ∧ ¬ separator <:+: e.outcome := by
  rw [merges_iff_split]
  constructor
  · intro h e he
    exact (split_packed_iff e.triple).mp (h e he)
  · intro h e he
    exact (split_packed_iff e.triple).mpr (h e he)

/-- A label with the separator in it: there is no report. -/
theorem sanitizeReport_raises :
    ¬ Merges [{ query := "howler.id:1".toList, outcome := "success".toList,
                title := "Executed Successfully".toList,
                message :=
                  "Label 'a===b' added to category 'generic' for all matching hits.".toList }] := by
  rintro ⟨out, hout, -⟩
  cases hout

end Howler.Actions
