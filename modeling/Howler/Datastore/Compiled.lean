import Howler.Datastore.Statements
import Howler.Python.Raising

namespace Howler.Datastore

open Python Structures Painless

section Texts

/-- The texts of statements put together: there is no semicolon after a block. -/
def glue : List Str → Str
  | [] => []
  | [w] => w
  | w :: ws => w ++ ((if w.getLast? = some '}' then ['\n'] else [';', '\n']) ++ glue ws)

theorem replaceFrom_of_absent {w : Str} (hw : ';' ∉ w) (new : Str) :
    replaceFrom ['}', ';', '\n'] new 0 w = w := by
  induction w with
  | nil => rfl
  | cons c w ih =>
    have htail : ';' ∉ w := fun h => hw (List.mem_cons_of_mem _ h)
    have hprefix : ['}', ';', '\n'].isPrefixOf (c :: w) = false := by
      cases w with
      | nil => simp [List.isPrefixOf]
      | cons c' w =>
        have hc' : ';' ≠ c' := fun h => htail (h ▸ List.mem_cons_self)
        simp [List.isPrefixOf, hc']
    rw [replaceFrom, hprefix, ih htail]
    rfl

/-- The semicolon between two statements is taken out if the first ends with a brace. -/
theorem replaceFrom_semicolon {w : Str} (hw : ';' ∉ w) (rest : Str) :
    replaceFrom ['}', ';', '\n'] ['}', '\n'] 0 (w ++ ([';', '\n'] ++ rest)) =
      w ++ ((if w.getLast? = some '}' then ['\n'] else [';', '\n']) ++
        replaceFrom ['}', ';', '\n'] ['}', '\n'] 0 rest) := by
  induction w with
  | nil => simp [replaceFrom, List.isPrefixOf]
  | cons c w ih =>
    have htail : ';' ∉ w := fun h => hw (List.mem_cons_of_mem _ h)
    cases w with
    | nil =>
      by_cases hc : c = '}'
      · simp [replaceFrom, List.isPrefixOf, hc]
      · have hc' : '}' ≠ c := Ne.symm hc
        simp [replaceFrom, List.isPrefixOf, hc, hc']
    | cons c' w =>
      have hc' : ';' ≠ c' := fun h => htail (h ▸ List.mem_cons_self)
      have hprefix : ['}', ';', '\n'].isPrefixOf (c :: c' :: w ++ ([';', '\n'] ++ rest)) = false := by
        simp [List.isPrefixOf, hc']
      rw [List.cons_append, replaceFrom, ← List.cons_append, hprefix, List.cons_append, ih htail]
      rfl

theorem replace_join {ws : List Str} (hws : ∀ w ∈ ws, ';' ∉ w) :
    replace "\x7d;\n".toList "\x7d\n".toList (join ";\n".toList ws) = glue ws := by
  have hold : "\x7d;\n".toList = ['}', ';', '\n'] := by decide
  have hnew : "\x7d\n".toList = ['}', '\n'] := by decide
  have hsep : ";\n".toList = [';', '\n'] := by decide
  rw [replace, hold, hnew, hsep]
  induction ws with
  | nil => rfl
  | cons w ws ih =>
    have hw := hws w (by simp)
    cases ws with
    | nil => rw [join_singleton, replaceFrom_of_absent hw, glue]
    | cons v ws =>
      rw [join_cons_cons, List.append_assoc, replaceFrom_semicolon hw,
        ih fun w hw => hws w (by simp [hw])]
      rfl

end Texts

section Keys

theorem not_mem_valueName {c : Char} (hc : classOf c ≠ .word) (n : ℕ) : c ∉ valueName n :=
  fun h => hc ((classOf_of_isName (isName_valueName n)).2 c h)

theorem not_mem_key {key : Str} {c : Char} (hkey : ∀ n ∈ pathOf key, isName n = true)
    (hc : classOf c ≠ .word) (hdot : c ≠ '.') : c ∉ key := by
  intro hmem
  have hcons : c ∈ '.' :: key := List.mem_cons_of_mem _ hmem
  rw [dot_key, List.mem_flatMap] at hcons
  obtain ⟨n, hn, hcn⟩ := hcons
  cases List.mem_cons.mp hcn with
  | inl heq => exact hdot heq
  | inr hmem => exact hc ((classOf_of_isName (hkey n hn)).2 c hmem)

theorem semicolon_not_mem_opSource {key : Str} (op : UpdateOperation) (n : ℕ)
    (hkey : ∀ n ∈ pathOf key, isName n = true) : ';' ∉ opSource op key n := by
  have hk : ';' ∉ key := not_mem_key hkey (by decide) (by decide)
  have hv : ';' ∉ valueName n := not_mem_valueName (by decide) n
  cases op with
  | _ => simp [opSource, opParts, hk, hv]

def isBlock : UpdateOperation → Bool
  | .appendIfMissing | .remove | .max | .min => true
  | _ => false

theorem getLast?_flatten {parts : List Str} {w : Str} (hparts : parts.getLast? = some w)
    (hw : w ≠ []) : parts.flatten.getLast? = w.getLast? := by
  obtain ⟨init, rfl⟩ := List.getLast?_eq_some_iff.mp hparts
  rw [List.flatten_append, List.getLast?_append_of_ne_nil]
  · simp
  · simpa using hw

theorem getLast?_opSource (op : UpdateOperation) (key : Str) (n : ℕ) :
    (opSource op key n).getLast? = some '}' ↔ isBlock op = true := by
  have hval : ("params.".toList ++ valueName n).getLast? ≠ some '}' := by
    have hne : valueName n ≠ [] := (classOf_of_isName (isName_valueName n)).1
    rw [List.getLast?_append_of_ne_nil _ hne]
    intro h
    exact not_mem_valueName (c := '}') (by decide) n (List.mem_of_getLast? h)
  have hne : "params.".toList ++ valueName n ≠ [] := by simp
  cases op with
  | set | inc | dec =>
    rw [opSource, getLast?_flatten rfl hne]
    simpa [isBlock] using hval
  | delete | append =>
    rw [opSource, getLast?_flatten (w := ")".toList) rfl (by decide)]
    decide
  | appendIfMissing =>
    rw [opSource, getLast?_flatten (w := ")\x7d".toList) rfl (by decide)]
    decide
  | remove =>
    rw [opSource, getLast?_flatten (w := "))\x7d".toList) rfl (by decide)]
    decide
  | max | min =>
    rw [opSource, getLast?_flatten (w := "\x7d".toList) rfl (by decide)]
    decide

end Keys

section Programs

/-- The statement of an operation and the number of its parameter. -/
def opText (e : DocOperation × ℕ) : Str := opSource e.1.op e.1.key e.2

def opTextTokens (e : DocOperation × ℕ) : List Str :=
  opTokens e.1.op (sourceTokens (pathOf e.1.key)) (paramTokens (valueName e.2))

def opTextLine (e : DocOperation × ℕ) : Line := opLine (pathOf e.1.key) (valueName e.2) e.1.op

/-- The tokens between two statements. -/
def sepTokens (op : UpdateOperation) : List Str := if isBlock op then [] else [[';']]

/-- The parts of the key are names. -/
def HasPath (o : DocOperation) : Prop := ∀ n ∈ pathOf o.key, isName n = true

theorem lex_glue {e e' : DocOperation × ℕ} {es : List (DocOperation × ℕ)} (he : HasPath e.1) :
    lex (glue ((e :: e' :: es).map opText)) =
      opTextTokens e ++ (sepTokens e.1.op ++ lex (glue ((e' :: es).map opText))) := by
  have hlast := getLast?_opSource e.1.op e.1.key e.2
  have hlex : lex (opText e) = opTextTokens e := lex_opSource e.2 he
  have hblock : lex ['\n'] = [] := by decide
  have hsimple : lex [';', '\n'] = [[';']] := by decide
  rw [List.map_cons, List.map_cons, glue, ← List.map_cons]
  · rw [opText] at hlex ⊢
    by_cases hb : isBlock e.1.op = true
    · rw [if_pos (hlast.mpr hb), lex_append (.inr rfl), lex_append (.inl rfl), hlex,
        hblock, sepTokens, if_pos hb]
    · rw [if_neg (mt hlast.mp hb), lex_append (.inr rfl), lex_append (.inl rfl),
        hlex, hsimple, sepTokens, if_neg hb]
  · intro h
    cases h

theorem stops_opTextTokens (e : DocOperation × ℕ) (rest : List Str) :
    Stops (opTextTokens e ++ rest) ∧ opTextTokens e ++ rest ≠ [] := by
  obtain ⟨⟨op, key, value⟩, n⟩ := e
  cases op with
  | _ => exact ⟨stops_cons _ (by decide), List.cons_ne_nil _ _⟩

theorem opTextLine_cases (e : DocOperation × ℕ) :
    (isBlock e.1.op = true ∧ ∃ conds body, opTextLine e = .when conds body) ∨
      (isBlock e.1.op = false ∧ ∃ s, opTextLine e = .simple s) := by
  obtain ⟨⟨op, key, value⟩, n⟩ := e
  cases op with
  | appendIfMissing | remove | max | min => exact .inl ⟨rfl, _, _, rfl⟩
  | set | delete | append | inc | dec => exact .inr ⟨rfl, _, rfl⟩

theorem length_le_lex_glue {es : List (DocOperation × ℕ)} (hes : ∀ e ∈ es, HasPath e.1) :
    es.length ≤ (lex (glue (es.map opText))).length := by
  have hone : ∀ e : DocOperation × ℕ, 1 ≤ (opTextTokens e).length := by
    intro e
    have hne := (stops_opTextTokens e []).2
    rw [List.append_nil] at hne
    exact List.length_pos_iff.mpr hne
  induction es with
  | nil => simp
  | cons e es ih =>
    have he := hes e (by simp)
    have hfirst := hone e
    cases es with
    | nil =>
      have hlex : lex (glue ([e].map opText)) = opTextTokens e := lex_opSource e.2 he
      rw [hlex]
      exact hfirst
    | cons e' es =>
      have htail := ih fun e he => hes e (by simp [he])
      rw [lex_glue he, List.length_append, List.length_append, List.length_cons]
      omega

/-- The program that the statements are put together to. -/
theorem parseLines_glue {es : List (DocOperation × ℕ)} {fuel : ℕ} (hes : ∀ e ∈ es, HasPath e.1)
    (hfuel : es.length ≤ fuel) :
    parseLines fuel (lex (glue (es.map opText))) = some (es.map opTextLine) := by
  induction es generalizing fuel with
  | nil => cases fuel <;> rfl
  | cons e es ih =>
    have he := hes e (by simp)
    have hname := isName_valueName e.2
    obtain ⟨fuel, rfl⟩ : ∃ n, fuel = n + 1 := Nat.exists_eq_add_one.mpr (Nat.lt_of_lt_of_le
      (Nat.succ_pos _) hfuel)
    cases es with
    | nil =>
      have hlex : lex (glue ([e].map opText)) = opTextTokens e ++ [] := by
        rw [List.append_nil]
        exact lex_opSource e.2 he
      have hline := @parseLine_opTokens _ _ he hname e.1.op [] ⟨rfl, by simp⟩
      rw [hlex]
      exact parseLines_last hline (stops_opTextTokens e []).2
    | cons e' es =>
      have htail := @ih fuel (fun e he => hes e (by simp [he])) (by simpa using hfuel)
      have hnext : ∃ rest, lex (glue ((e' :: es).map opText)) = opTextTokens e' ++ rest := by
        cases es with
        | nil =>
          refine ⟨[], ?_⟩
          rw [List.append_nil]
          exact lex_opSource e'.2 (hes e' (by simp))
        | cons e'' es => exact ⟨_, lex_glue (hes e' (by simp))⟩
      obtain ⟨rest, hrest⟩ := hnext
      have hstops := stops_opTextTokens e' rest
      rw [← hrest] at hstops
      have hmap : (e :: e' :: es).map opTextLine = opTextLine e :: (e' :: es).map opTextLine := rfl
      rw [lex_glue he, sepTokens]
      cases opTextLine_cases e with
      | inl hblock =>
        obtain ⟨hb, conds, body, hwhen⟩ := hblock
        have hline := parseLine_opTokens he hname e.1.op hstops.1
        rw [if_pos hb, List.nil_append]
        rw [← opTextLine, hwhen] at hline
        rw [hmap, hwhen]
        exact parseLines_block hline (stops_opTextTokens e _).2 hstops.2 htail
      | inr hsimple =>
        obtain ⟨hb, s, hs⟩ := hsimple
        have hline := parseLine_opTokens he hname e.1.op
          (stops_cons (t := [';']) (lex (glue ((e' :: es).map opText))) (by decide))
        rw [if_neg (by simp [hb])]
        rw [← opTextLine, hs] at hline
        rw [hmap, hs]
        exact parseLines_simple hline (stops_opTextTokens e _).2 htail

end Programs

section Execution

variable {V : Values} {params : Dict Str Json} {path : List Str} {name : Str} {value : Json}

theorem isNull_eq_false {v : Json} : isNull v = false ↔ v ≠ .null := by
  cases v with
  | _ => simp [isNull]

theorem ne_null_of_indexOf {v x : Json} {i : Option ℕ} (h : indexOf V x v = some i) :
    v ≠ .null := by
  intro hnull
  rw [hnull] at h
  cases h

/-- A value that stays. -/
theorem modifyAt_eq_self {f : Json → Option Json} {doc v : Json}
    (hget : Json.getAt path doc = some v) (hf : f v = some v) (hv : v ≠ .null) :
    Json.modifyAt f path doc = some doc := by
  rw [Json.modifyAt_congr (g := fun _ => some v) hget hf, Json.modifyAt_self hget hv]

theorem modifyAt_of_none {f : Json → Option Json} {doc v : Json}
    (hget : Json.getAt path doc = some v) (hf : f v = none) :
    Json.modifyAt f path doc = none := by
  rw [Json.modifyAt_congr (g := fun _ => none) hget hf, Json.modifyAt_none]

theorem exec_found (doc : Json) {s : Statement} {expected : Bool} {f : Json → Option Json}
    (hvalue : Json.entry params name = value)
    (hs : ∀ v i, Json.getAt path doc = some v → indexOf V value v = some i →
      i.isSome = expected → s.exec V params doc = Json.modifyAt f path doc)
    (hstays : ∀ v i, indexOf V value v = some i → i.isSome ≠ expected → f v = some v)
    (hfails : ∀ v, indexOf V value v = none → f v = none) :
    (Line.when [.found (.source path) (.param name) expected] s).exec V params doc =
      Json.modifyAt f path doc := by
  cases hget : Json.getAt path doc with
  | none =>
    rw [Json.modifyAt_eq_none hget]
    simp [Line.exec, anyHolds, Cond.eval, Ref.eval, hget]
  | some v =>
    cases hindex : indexOf V value v with
    | none =>
      rw [modifyAt_of_none hget (hfails v hindex)]
      simp [Line.exec, anyHolds, Cond.eval, Ref.eval, hget, hvalue, hindex]
    | some i =>
      by_cases hi : i.isSome = expected
      · rw [← hs v i hget hindex hi]
        simp [Line.exec, anyHolds, Cond.eval, Ref.eval, hget, hvalue, hindex, hi]
      · rw [modifyAt_eq_self hget (hstays v i hindex hi) (ne_null_of_indexOf hindex)]
        simp [Line.exec, anyHolds, Cond.eval, Ref.eval, hget, hvalue, hindex, hi]

theorem exec_assign (doc : Json) (hvalue : Json.entry params name = value) :
    (Statement.assign path (.param name)).exec V params doc =
      Json.modifyAt (fun _ => some value) path doc := by
  rw [← hvalue]
  rfl

/-- The value in the place of one that is null or that it compares with as asked. -/
def betterOf (V : Values) (less : Bool) (value old : Json) : Option Json :=
  if isNull old then some value
  else do
    let c ← V.compareTo old value
    if (if less then c < 0 else 0 < c) then some value else some old

theorem exec_compares (doc : Json) (less : Bool) (hvalue : Json.entry params name = value) :
    (Line.when [.isNull (.source path), .compares (.source path) (.param name) less]
      (.assign path (.param name))).exec V params doc =
        Json.modifyAt (betterOf V less value) path doc := by
  have hassign := @exec_assign V params path name value doc hvalue
  cases hget : Json.getAt path doc with
  | none =>
    rw [Json.modifyAt_eq_none hget]
    simp [Line.exec, anyHolds, Cond.eval, Ref.eval, hget]
  | some v =>
    by_cases hnull : isNull v = true
    · have hbetter : betterOf V less value v = some value := by
        simp [betterOf, hnull]
      rw [Json.modifyAt_congr (g := fun _ => some value) hget hbetter, ← hassign]
      simp [Line.exec, anyHolds, Cond.eval, Ref.eval, hget, hnull]
    · rw [Bool.not_eq_true] at hnull
      cases hcompare : V.compareTo v value with
      | none =>
        have hbetter : betterOf V less value v = none := by simp [betterOf, hnull, hcompare]
        rw [modifyAt_of_none hget hbetter]
        simp [Line.exec, anyHolds, Cond.eval, Ref.eval, hget, hvalue, hnull, hcompare]
      | some c =>
        by_cases hc : (if less then c < 0 else 0 < c)
        · have hbetter : betterOf V less value v = some value := by
            simp [betterOf, hnull, hcompare, hc]
          rw [Json.modifyAt_congr (g := fun _ => some value) hget hbetter, ← hassign]
          simp [Line.exec, anyHolds, Cond.eval, Ref.eval, hget, hvalue, hnull, hcompare, hc]
        · have hbetter : betterOf V less value v = some v := by
            simp [betterOf, hnull, hcompare, hc]
          rw [modifyAt_eq_self hget hbetter (isNull_eq_false.mp hnull)]
          simp [Line.exec, anyHolds, Cond.eval, Ref.eval, hget, hvalue, hnull, hcompare, hc]

/-- The line of an operation does what the operation does. -/
theorem exec_opLine (op : UpdateOperation) (doc : Json)
    (hvalue : Json.entry params name = value) :
    (opLine path name op).exec V params doc = Json.modifyAt (op.onValue V value) path doc := by
  cases op with
  | set => exact exec_assign (V := V) doc hvalue
  | delete => rw [← hvalue]; rfl
  | append => rw [← hvalue]; rfl
  | inc => rw [← hvalue]; rfl
  | dec => rw [← hvalue]; rfl
  | appendIfMissing =>
    apply exec_found doc hvalue
    · intro v i hget hindex hi
      obtain rfl : i = none := by simpa using hi
      have hadd : UpdateOperation.onValue V value .appendIfMissing v = Painless.append value v := by
        simp [UpdateOperation.onValue, hindex]
      rw [Json.modifyAt_congr hget hadd, ← hvalue]
      rfl
    · intro v i hindex hi
      obtain ⟨k, rfl⟩ : ∃ k, i = some k := Option.ne_none_iff_exists'.mp (by simpa using hi)
      simp [UpdateOperation.onValue, hindex]
    · intro v hindex
      simp [UpdateOperation.onValue, hindex]
  | remove =>
    apply exec_found doc hvalue
    · intro v i hget hindex hi
      obtain ⟨k, rfl⟩ : ∃ k, i = some k := Option.isSome_iff_exists.mp hi
      have hremove : UpdateOperation.onValue V value .remove v = removeIndex (some k) v := by
        simp [UpdateOperation.onValue, hindex]
      rw [Json.modifyAt_congr hget hremove]
      simp [Statement.exec, Ref.eval, hvalue, hget, hindex]
    · intro v i hindex hi
      obtain rfl : i = none := by simpa using hi
      simp [UpdateOperation.onValue, hindex]
    · intro v hindex
      simp [UpdateOperation.onValue, hindex]
  | max =>
    have hmax : UpdateOperation.onValue V value .max = betterOf V true value := by
      funext old
      simp [UpdateOperation.onValue, betterOf]
    rw [hmax]
    exact exec_compares doc true hvalue
  | min =>
    have hmin : UpdateOperation.onValue V value .min = betterOf V false value := by
      funext old
      simp [UpdateOperation.onValue, betterOf]
    rw [hmin]
    exact exec_compares doc false hvalue

end Execution

section Scripts

variable {V : Values}

/-- The path that an operation reads. What it sets is not read. -/
def DocOperation.readPath (o : DocOperation) : List Str :=
  if o.op = .set then (pathOf o.key).dropLast else pathOf o.key

/-- The parts of the key are names, and none that is read is a property of maps. -/
def DocOperation.readable (o : DocOperation) : Bool :=
  (pathOf o.key).all isName && isPlain o.readPath

/-- No operation reads a property of a list or of a number in the document as it finds it. -/
def directAll (V : Values) : List DocOperation → Json → Bool
  | [], _ => true
  | o :: ops, doc => isDirect o.readPath doc && (o.apply V doc).all (directAll V ops)

theorem isPlain_of_prefix {path path' : List Str} (h : path <+: path')
    (hplain : isPlain path' = true) : isPlain path = true := by
  rw [isPlain, List.all_eq_true] at hplain ⊢
  intro n hn
  exact hplain n (h.subset hn)

theorem isDirect_of_prefix {path path' : List Str} {doc : Json} (h : path <+: path')
    (hdirect : isDirect path' doc = true) : isDirect path doc = true := by
  induction path generalizing path' doc with
  | nil => rfl
  | cons k ks ih =>
    obtain ⟨ks', rfl, hks⟩ : ∃ ks', path' = k :: ks' ∧ ks <+: ks' := by
      obtain ⟨rest, rfl⟩ := h
      exact ⟨ks ++ rest, rfl, List.prefix_append _ _⟩
    cases doc with
    | obj fields => exact ih hks hdirect
    | list xs =>
      rw [isDirect, Bool.and_eq_true] at hdirect ⊢
      refine ⟨hdirect.1, ?_⟩
      cases hi : Json.position k xs.length with
      | none => rfl
      | some i =>
        have hrest := hdirect.2
        rw [hi] at hrest
        exact ih hks hrest
    | num n => exact hdirect
    | _ => rfl

/-- Where no part is a property, none is read. -/
theorem isDirect_of_forall {path : List Str} (doc : Json)
    (h : ∀ k ∈ path, k ∉ listProperties ++ numberProperties) : isDirect path doc = true := by
  induction path generalizing doc with
  | nil => rfl
  | cons k ks ih =>
    have hk := h k (by simp)
    rw [List.mem_append, not_or] at hk
    have hks := fun doc => ih doc fun k' hk' => h k' (by simp [hk'])
    cases doc with
    | obj fields => exact hks _
    | list xs =>
      rw [isDirect, Bool.and_eq_true]
      refine ⟨decide_eq_true hk.1, ?_⟩
      cases Json.position k xs.length with
      | none => rfl
      | some i => exact hks _
    | num n => exact decide_eq_true hk.2
    | _ => rfl

theorem directAll_of_forall (V : Values) {ops : List DocOperation}
    (h : ∀ o ∈ ops, ∀ k ∈ o.readPath, k ∉ listProperties ++ numberProperties) (doc : Json) :
    directAll V ops doc = true := by
  induction ops generalizing doc with
  | nil => rfl
  | cons o ops ih =>
    rw [directAll, Bool.and_eq_true]
    refine ⟨isDirect_of_forall doc (h o (by simp)), ?_⟩
    cases o.apply V doc with
    | none => rfl
    | some doc' => exact ih (fun o ho => h o (by simp [ho])) doc'

/-- A statement reads what its operation reads, or a part of the way. -/
theorem prefix_of_mem_reads {e : DocOperation × ℕ} {path : List Str}
    (h : path ∈ (opTextLine e).reads) : path <+: e.1.readPath := by
  obtain ⟨⟨op, key, value⟩, n⟩ := e
  cases op with
  | set =>
    obtain rfl : path = (pathOf key).dropLast := by
      simpa [opTextLine, opLine, Line.reads, Statement.reads, Ref.reads] using h
    exact List.prefix_rfl
  | max | min =>
    obtain rfl | rfl : path = pathOf key ∨ path = (pathOf key).dropLast := by
      simpa [opTextLine, opLine, Line.reads, Statement.reads, Cond.reads, Ref.reads] using h
    · exact List.prefix_rfl
    · exact List.dropLast_prefix _
  | _ =>
    obtain rfl : path = pathOf key := by
      simpa [opTextLine, opLine, Line.reads, Statement.reads, Cond.reads, Ref.reads] using h
    exact List.prefix_rfl

theorem plain_opTextLine {e : DocOperation × ℕ} (h : e.1.readable = true) :
    (opTextLine e).plain = true := by
  rw [DocOperation.readable, Bool.and_eq_true] at h
  rw [Line.plain, List.all_eq_true]
  intro path hpath
  exact isPlain_of_prefix (prefix_of_mem_reads hpath) h.2

theorem valueName_inj {n m : ℕ} (h : valueName n = valueName m) : n = m := by
  have hdigits : Nat.toDigits 10 n = Nat.toDigits 10 m := List.append_cancel_left h
  have hvalue := congrArg (fun ds => Nat.ofDigitChars 10 ds 0) hdigits
  simpa [Nat.ofDigitChars_ten_toDigits] using hvalue

theorem entry_params (ops : List DocOperation) {e : DocOperation × ℕ} (he : e ∈ ops.zipIdx) :
    Json.entry (createScripts ops).params (valueName e.2) = e.1.value := by
  have hparams : (createScripts ops).params =
      ops.zipIdx.map fun e => (valueName e.2, e.1.value) := List.mapIdx_eq_zipIdx_map
  have hkeys : Dict.keys (createScripts ops).params =
      (List.range' 0 ops.length).map valueName := by
    rw [hparams, Dict.keys, List.map_map, ← List.zipIdx_map_snd 0 ops, List.map_map]
    rfl
  have hnodup : (Dict.keys (createScripts ops).params).Nodup := by
    rw [hkeys]
    exact (List.nodup_range' ..).map fun n m => valueName_inj
  have hmem : (valueName e.2, e.1.value) ∈ (createScripts ops).params := by
    rw [hparams]
    exact List.mem_map_of_mem he
  rw [Json.entry, Dict.get?_of_mem hnodup hmem]
  rfl

theorem parse_createScripts {ops : List DocOperation} (hops : ∀ o ∈ ops, o.readable = true) :
    parse (createScripts ops).source = some (ops.zipIdx.map opTextLine) := by
  have hmem : ∀ e ∈ ops.zipIdx, e.1.readable = true := by
    intro e he
    exact hops e.1 (List.fst_mem_of_mem_zipIdx he)
  have hpaths : ∀ e ∈ ops.zipIdx, HasPath e.1 := by
    intro e he
    have hreadable := hmem e he
    rw [DocOperation.readable, Bool.and_eq_true, List.all_eq_true] at hreadable
    exact hreadable.1
  have hsource : (createScripts ops).source = glue (ops.zipIdx.map opText) := by
    rw [createScripts, List.mapIdx_eq_zipIdx_map]
    apply replace_join
    intro w hw
    obtain ⟨e, he, rfl⟩ := List.mem_map.mp hw
    exact semicolon_not_mem_opSource e.1.op e.2 (hpaths e he)
  have hplain : (ops.zipIdx.map opTextLine).all Line.plain = true := by
    rw [List.all_eq_true]
    intro line hline
    obtain ⟨e, he, rfl⟩ := List.mem_map.mp hline
    exact plain_opTextLine (hmem e he)
  rw [parse, hsource, parseLines_glue hpaths (length_le_lex_glue hpaths), Option.filter_some,
    if_pos hplain]

theorem exec_opTextLines {params : Dict Str Json} {es : List (DocOperation × ℕ)} (doc : Json)
    (hparams : ∀ e ∈ es, Json.entry params (valueName e.2) = e.1.value) :
    exec V params doc (es.map opTextLine) = applyAll V (es.map Prod.fst) doc := by
  induction es generalizing doc with
  | nil => rfl
  | cons e es ih =>
    have hline := @exec_opLine V params (pathOf e.1.key) _ _ e.1.op doc (hparams e (by simp))
    have htail : ∀ doc', exec V params doc' (es.map opTextLine) = applyAll V (es.map Prod.fst) doc' :=
      fun doc' => ih doc' fun e he => hparams e (by simp [he])
    rw [List.map_cons, exec, opTextLine, hline, List.map_cons, applyAll, List.foldlM_cons]
    exact congrArg _ (funext htail)

theorem direct_opTextLines {params : Dict Str Json} {es : List (DocOperation × ℕ)} (doc : Json)
    (hparams : ∀ e ∈ es, Json.entry params (valueName e.2) = e.1.value)
    (hdirect : directAll V (es.map Prod.fst) doc = true) :
    direct V params doc (es.map opTextLine) = true := by
  induction es generalizing doc with
  | nil => rfl
  | cons e es ih =>
    rw [List.map_cons, directAll, Bool.and_eq_true] at hdirect
    have hline : (opTextLine e).exec V params doc = e.1.apply V doc :=
      exec_opLine e.1.op doc (hparams e (by simp))
    rw [List.map_cons, direct, Bool.and_eq_true, List.all_eq_true, hline]
    refine ⟨fun path hpath => isDirect_of_prefix (prefix_of_mem_reads hpath) hdirect.1, ?_⟩
    cases hdoc' : e.1.apply V doc with
    | none => rfl
    | some doc' =>
      have hrest := hdirect.2
      rw [hdoc'] at hrest
      exact ih doc' (fun e he => hparams e (by simp [he])) hrest

/-- What no operation names stays. -/
theorem getAt_applyAll {ops : List DocOperation} {q : List Str} {doc doc' : Json}
    (h : applyAll V ops doc = some doc') (hq : ∀ o ∈ ops, Json.Apart (pathOf o.key) q) :
    Json.getAt q doc' = Json.getAt q doc := by
  induction ops generalizing doc with
  | nil =>
    obtain rfl : doc = doc' := by simpa [applyAll] using h
    rfl
  | cons o ops ih =>
    rw [applyAll, List.foldlM_cons, Option.bind_eq_bind, Option.bind_eq_some_iff] at h
    obtain ⟨doc₁, hfirst, hrest⟩ := h
    rw [ih hrest fun o ho => hq o (by simp [ho]), Json.getAt_modifyAt hfirst (hq o (by simp))]

end Scripts

section Requests

variable {V : Values}

/-- The path that the statement for a request reads. -/
def readPath (op : Str × Str × Json) : List Str :=
  if op.1 = "SET".toList then (pathOf op.2.1).dropLast else pathOf op.2.1

/-- The parts of the key are names, and none that is read is a property of maps. -/
def isReadable (op : Str × Str × Json) : Bool :=
  (pathOf op.2.1).all isName && isPlain (readPath op)

theorem of_validateOperation {fields : Dict Str FieldCheck} {op : Str × Str × Json}
    {o : DocOperation} (h : validateOperation fields op = .ok o) :
    UpdateOperation.ofName.get? op.1 = some o.op ∧ o.key = op.2.1 := by
  rw [validateOperation] at h
  cases hname : UpdateOperation.ofName.get? op.1 with
  | none => simp [hname, throw, throwThe, MonadExceptOf.throw] at h
  | some operation =>
    simp only [hname] at h
    obtain ⟨check, hcheck, h⟩ := bind_eq_ok.mp h
    split at h
    · split at h
      · obtain rfl := Except.ok.inj h
        exact ⟨rfl, rfl⟩
      · cases h
    · obtain rfl := Except.ok.inj h
      exact ⟨rfl, rfl⟩

theorem readPath_of_validateOperation {fields : Dict Str FieldCheck} {op : Str × Str × Json}
    {o : DocOperation} (h : validateOperation fields op = .ok o) : o.readPath <+: readPath op := by
  obtain ⟨hname, hkey⟩ := of_validateOperation h
  rw [DocOperation.readPath, readPath, hkey]
  by_cases hset : op.1 = "SET".toList
  · have hget : UpdateOperation.ofName.get? "SET".toList = some .set := by decide +kernel
    rw [hset, hget] at hname
    rw [if_pos hset, if_pos (Option.some.inj hname).symm]
  · rw [if_neg hset]
    split
    · exact List.dropLast_prefix _
    · exact List.prefix_rfl

theorem readable_of_validateOperation {fields : Dict Str FieldCheck} {op : Str × Str × Json}
    {o : DocOperation} (h : validateOperation fields op = .ok o) (hop : isReadable op = true) :
    o.readable = true := by
  rw [isReadable, Bool.and_eq_true] at hop
  rw [DocOperation.readable, (of_validateOperation h).2, Bool.and_eq_true]
  exact ⟨hop.1, isPlain_of_prefix (readPath_of_validateOperation h) hop.2⟩

/-- The script of the operations does to a document what they do, one after the other, and nothing
else. -/
def AppliesTo (E : Painless.Engine V) (ops : List DocOperation) (doc : Json) : Prop :=
  E.run (createScripts ops).source (createScripts ops).params doc = applyAll V ops doc ∧
    ∀ doc', E.run (createScripts ops).source (createScripts ops).params doc = some doc' →
      ∀ q, (∀ o ∈ ops, Json.Apart (pathOf o.key) q) → Json.getAt q doc' = Json.getAt q doc

/-- So does the script for what is accepted of a request, to every document. -/
def Applies (E : Painless.Engine V) (fields : Dict Str FieldCheck) (ops : List (Str × Str × Json)) : Prop :=
  ∀ ops', validateOperations fields ops = .ok ops' → ∀ doc, AppliesTo E ops' doc

theorem appliesTo_of_direct (E : Painless.Engine V) {fields : Dict Str FieldCheck}
    {ops : List (Str × Str × Json)} {ops' : List DocOperation}
    (hops : ∀ op ∈ ops, isReadable op = true) (hvalid : validateOperations fields ops = .ok ops')
    {doc : Json} (hdirect : directAll V ops' doc = true) : AppliesTo E ops' doc := by
  have hreadable : ∀ o ∈ ops', o.readable = true := by
    intro o ho
    obtain ⟨op, hop, hvalidOp⟩ := (mem_of_mapM_ok hvalid o).mp ho
    exact readable_of_validateOperation hvalidOp (hops op hop)
  have hparams := fun e (he : e ∈ ops'.zipIdx) => entry_params ops' he
  have hexec := @exec_opTextLines V _ _ doc hparams
  have hlines := @direct_opTextLines V _ _ doc hparams
  rw [List.zipIdx_map_fst] at hexec hlines
  have hrun : E.run (createScripts ops').source (createScripts ops').params doc =
      applyAll V ops' doc :=
    (E.reads _ _ _ _ (parse_createScripts hreadable) (hlines hdirect)).trans hexec
  exact ⟨hrun, fun doc' hdoc' q hq => getAt_applyAll (hrun ▸ hdoc') hq⟩

/-- Keys that are readable as paths are read as paths, in documents where no property of a list or
of a number is read, which are all documents where no part of a key is such a property. -/
theorem applies_of_readable (E : Painless.Engine V) (fields : Dict Str FieldCheck)
    (ops : List (Str × Str × Json)) (hops : ∀ op ∈ ops, isReadable op = true) :
    (∀ ops', validateOperations fields ops = .ok ops' → ∀ doc, directAll V ops' doc = true →
      AppliesTo E ops' doc) ∧
    ((∀ op ∈ ops, ∀ k ∈ readPath op, k ∉ listProperties ++ numberProperties) →
      Applies E fields ops) := by
  refine ⟨fun ops' hvalid doc hdirect => appliesTo_of_direct E hops hvalid hdirect, ?_⟩
  intro hparts ops' hvalid doc
  refine appliesTo_of_direct E hops hvalid (directAll_of_forall V (fun o ho k hk => ?_) doc)
  obtain ⟨op, hop, hvalidOp⟩ := (mem_of_mapM_ok hvalid o).mp ho
  exact hparts op hop k ((readPath_of_validateOperation hvalidOp).subset hk)

/-- What the scripting language does with texts. -/
def textValues : Values where
  equals
    | .str s, .str t => s = t
    | _, _ => false
  plus
    | .str s, .str t => some (.str (s ++ t))
    | _, _ => none
  minus _ _ := none
  compareTo _ _ := none

/-- A list of keywords, labels and a marking. -/
def labelled : Dict Str FieldCheck :=
  let keyword : Json → Option Json
    | .str s => some (.str s)
    | _ => none
  [("tags".toList, ⟨keyword, none⟩), ("labels".toList, ⟨some, some keyword⟩),
    ("classification".toList, ⟨keyword, none⟩)]

/-- A list and a label are written, and a label is read that has the name of a property of lists. -/
theorem applies_to_tags_and_labels :
    Applies (reader textValues) labelled
      [("APPEND_IF_MISSING".toList, "tags".toList, .str "seen".toList),
        ("SET".toList, "labels.team".toList, .str "blue".toList)] ∧
    AppliesTo (reader textValues) [⟨.inc, "labels.length".toList, .str "cm".toList⟩]
      (.obj [("labels".toList, .obj [("length".toList, .str "10 ".toList)])]) := by
  constructor
  · exact (applies_of_readable _ _ _ (by decide +kernel)).2 (by decide +kernel)
  · refine (applies_of_readable (reader textValues) labelled
      [("INC".toList, "labels.length".toList, .str "cm".toList)] (by decide +kernel)).1 _ rfl _ ?_
    decide +kernel

def relabelling : List (Str × Str × Json) :=
  [("SET".toList, "labels.a = ctx['_source']['classification']".toList, .str "TLP:CLEAR".toList)]

/-- The key of a label that assigns to the marking of the document. -/
theorem label_key_sets_marking : ¬ Applies (reader textValues) labelled relabelling := by
  intro happlies
  let ops : List DocOperation :=
    [⟨.set, "labels.a = ctx['_source']['classification']".toList, .str "TLP:CLEAR".toList⟩]
  let doc (marking : Json) (labels : Dict Str Json) : Json :=
    .obj [("labels".toList, .obj labels), ("classification".toList, marking)]
  have hvalid : validateOperations labelled relabelling = .ok ops := rfl
  have hparse : parse (createScripts ops).source = some
      [.simple (.assignBoth ["labels".toList, "a".toList] ["classification".toList]
        (.param "value0".toList))] := by decide +kernel
  have hrun : (reader textValues).run (createScripts ops).source (createScripts ops).params
      (doc (.str "SECRET".toList) []) =
        some (doc (.str "TLP:CLEAR".toList) [("a".toList, .str "TLP:CLEAR".toList)]) := by
    rw [(reader textValues).reads _ _ _ _ hparse rfl]
    rfl
  have hapart : ∀ o ∈ ops, Json.Apart (pathOf o.key) ["classification".toList] := by
    intro o ho
    obtain rfl := List.mem_singleton.mp ho
    exact ⟨by decide +kernel, by decide +kernel⟩
  have hframe := (happlies ops hvalid _).2 _ hrun _ hapart
  have hget : Json.getAt ["classification".toList]
      (doc (.str "TLP:CLEAR".toList) [("a".toList, .str "TLP:CLEAR".toList)]) =
        some (.str "TLP:CLEAR".toList) := rfl
  have hget' : Json.getAt ["classification".toList] (doc (.str "SECRET".toList) []) =
      some (.str "SECRET".toList) := rfl
  rw [hget, hget'] at hframe
  simp at hframe

end Requests

end Howler.Datastore
