import Mathlib.Data.List.Pairwise
import Howler.Correlation.Invariant

namespace Howler.Correlation

open Python Cases Structures Systems Systems.Prog

/-- The operations on the items of cases. -/
inductive Operation where
  | create (case : Case) (items : List ItemData) (user : Option Str)
  | append (caseId : Str) (item : ItemData)
  | appendNew (caseId : Str) (type : CaseItemTypes) (value : Str) (parent name : Option Str)
  | parentFromPath (caseId : Str) (path : Option Str)
  | move (caseId itemId : Str) (newParent : Option Str)
  | rename (caseId itemId newName : Str)
  | remove (caseId : Str) (itemIds : List Str) (force : Bool)
  | batch (recordIds : List Str)

/-- A call: what it has written when it fails is undone, or stays. -/
structure Call where
  operation : Operation
  undone : Bool

section Step

variable (es : Elastic) (render : Str → Match → Str)

def Operation.program : Operation → Service Unit
  | .create case items user => do let _ ← createCase case items user
  | .append caseId item => do let _ ← appendItem caseId item
  | .appendNew caseId type value parent name => do
    let _ ← appendNewItem caseId type value parent name
  | .parentFromPath caseId path => do let _ ← getParentFromPathOf caseId path true
  | .move caseId itemId newParent => do let _ ← moveCaseItem caseId itemId newParent
  | .rename caseId itemId newName => do let _ ← renameCaseItem caseId itemId newName
  | .remove caseId itemIds force => do let _ ← removeCaseItems caseId itemIds force
  | .batch recordIds => do let _ ← processBatch render recordIds

def step (w : World) (call : Call) : World :=
  match (call.operation.program render).run (handle es) w with
  | (.ok _, w') => w'
  | (.error _, w') => if call.undone then w else w'

end Step

/-- The ids that are supplied with an operation. -/
def Operation.supplied : Operation → List Str
  | .create _ items _ => items.filterMap (·.id)
  | .append _ item => item.id.toList
  | _ => []

/-- Random ids are fresh: those to come are none of the supplied ones. -/
def UidsFresh (w : World) (op : Operation) : Prop :=
  ∀ id ∈ op.supplied, ∀ n, w.nextUid ≤ n → w.uids n ≠ id

/-- A supplied id is new to the case. -/
def SuppliedNew (w : World) : Operation → Prop
  | .create _ items _ => (items.filterMap (·.id)).Nodup
  | .append caseId item => ∀ id, item.id = some id →
      ∀ c, w.cases caseId = some c → id ∉ c.items.map (·.id)
  | _ => True

/-- No name is given twice under one parent. -/
def NamesKept (es : Elastic) (render : Str → Match → Str) (w : World) : Operation → Prop
  | .create _ items _ => items = []
  | .append caseId item => item.id ≠ some [] ∧ NamesFree caseId item w
  | .appendNew caseId type value parent name =>
    NamesFree caseId { type, value := some value, parent, name } w
  | .parentFromPath caseId path => ∀ c, w.cases caseId = some c →
      PathFree c.items (pathParts (path.getD [])) none
  | .batch recordIds => ∀ v ∈ visits es render recordIds w, v.PathFree render
  | _ => True

section Histories

variable {s : Scope} {es : Elastic} {render : Str → Match → Str} {w : World}

theorem ends_unit {α : Type} {p : Service α} (h : Ends (handle es) p w (fun _ => Inv s) (Inv s)) :
    Ends (handle es) (do let _ ← p) w (fun _ => Inv s) (Inv s) :=
  h.bind fun _ _ hw => ends_pure hw

theorem ends_operation (hs : ∀ k, s.kept k = []) {op : Operation} (h : Inv s w)
    (hfresh : UidsFresh w op) (hnew : SuppliedNew w op)
    (hnames : s.names → NamesKept es render w op) :
    Ends (handle es) (op.program render) w (fun _ => Inv s) (Inv s) := by
  cases op with
  | create case items user =>
    exact ends_unit (triple_createCase hs case items user hnames w ⟨h, hnew, hfresh⟩)
  | append caseId item =>
    refine ends_unit (triple_appendItem caseId item w ⟨h, fun id hid hk c hc => ?_,
      fun hn => (hnames hn).2⟩)
    refine ⟨hnew id hid c hc, hfresh id (by simp [Operation.supplied, hid]), by simp [hs],
      fun hn hempty => ?_⟩
    exact (hnames hn).1 (hempty ▸ hid)
  | appendNew caseId type value parent name =>
    exact ends_unit (triple_appendNewItem caseId type value parent name w ⟨h, hnames⟩)
  | parentFromPath caseId path =>
    exact ends_unit (triple_getParentFromPathOf caseId path true w ⟨h, fun hn _ => hnames hn⟩)
  | move caseId itemId newParent => exact ends_unit (triple_moveCaseItem caseId itemId newParent w h)
  | rename caseId itemId newName =>
    exact ends_unit (triple_renameCaseItem caseId itemId newName w h)
  | remove caseId itemIds force =>
    exact ends_unit (triple_removeCaseItems caseId itemIds force w h)
  | batch recordIds =>
    exact ends_unit (ends_processBatch render recordIds h fun hn v hv _ => hnames hn v hv)

theorem inv_step (hs : ∀ k, s.kept k = []) {call : Call} (h : Inv s w)
    (hfresh : UidsFresh w call.operation) (hnew : SuppliedNew w call.operation)
    (hnames : s.names → NamesKept es render w call.operation) :
    Inv s (step es render w call) := by
  have hends := ends_operation hs h hfresh hnew hnames
  rw [step]
  cases hrun : (call.operation.program render).run (handle es) w with
  | mk r w' =>
    cases r with
    | ok a => exact hends.1 a w' hrun
    | error e =>
      dsimp only
      split
      · exact h
      · exact hends.2 e w' hrun

/-- The invariant holds all along a run, for the cases that had no items at its start. -/
theorem inv_history {names : Prop} {calls : List Call}
    (hkeyed : ∀ k c, w.cases k = some c → c.caseId = k) (huids : Function.Injective w.uids)
    (hne : names → ∀ n, w.uids n ≠ [])
    (hok : Along (step es render) (fun w call => UidsFresh w call.operation ∧
      SuppliedNew w call.operation ∧ (names → NamesKept es render w call.operation)) w calls) :
    Inv ⟨fun k => ∀ c, w.cases k = some c → c.items = [], names, fun _ => []⟩
      (run (step es render) w calls) := by
  refine inv_run _ (fun w call h hc => inv_step (fun _ => rfl) h hc.1 hc.2.1 hc.2.2) ?_ hok
  refine ⟨hkeyed, fun k c hc hk => ?_, huids, hne, fun _ id hid => nomatch hid⟩
  have hempty := hk c hc
  exact ⟨by rw [hempty]; exact tidy_nil, by simp [hempty], by simp⟩

/-- In a case that had no items, every parent is a folder of the case, parents lead to the root,
and items of type case are at the root, as long as no supplied id is one of an item of the case. -/
theorem items_form_forest (es : Elastic) (render : Str → Match → Str) (w : World)
    (calls : List Call) (hkeyed : ∀ k c, w.cases k = some c → c.caseId = k)
    (huids : Function.Injective w.uids)
    (hok : Along (step es render)
      (fun w call => UidsFresh w call.operation ∧ SuppliedNew w call.operation) w calls)
    (k : Str) (hempty : ∀ c, w.cases k = some c → c.items = []) (c : Case)
    (hc : (run (step es render) w calls).cases k = some c) :
    (∀ i ∈ c.items, ∀ p, i.parent = some p → ∃ f ∈ c.items, f.id = p ∧ f.type = .folder) ∧
    (∀ i ∈ c.items, Rooted CaseItem.id CaseItem.parent c.items i) ∧
    ∀ i ∈ c.items, i.type = .case → i.parent = none := by
  have hinv : Inv ⟨_, False, _⟩ _ := inv_history hkeyed huids (by simp) (by simpa using hok)
  have htidy := (hinv.held k c hc hempty).tidy
  exact ⟨htidy.forest.parents, fun i hi => htidy.forest.rooted hi, htidy.caseRoot⟩

/-- A path of names from a parent leads to an item. -/
def Leads (items : List CaseItem) : List Str → Option Str → CaseItem → Prop
  | [], _, _ => False
  | [name], parent, i => i ∈ items ∧ i.parent = parent ∧ i.name = some name
  | name :: path, parent, i =>
    ∃ f ∈ items, f.parent = parent ∧ f.name = some name ∧ Leads items path (some f.id) i

theorem eq_of_names {items : List CaseItem} (h : UniqueNames items) {i j : CaseItem}
    (hi : i ∈ items) (hj : j ∈ items) (hp : i.parent = j.parent) (hn : i.name = j.name) :
    i = j := by
  by_contra hne
  have hsymm : Std.Symm fun a b : CaseItem => a.parent = b.parent → a.name ≠ b.name :=
    ⟨fun a b hab hpar heq => hab hpar.symm heq.symm⟩
  exact List.Pairwise.forall h hi hj hne hp hn

theorem leads_unique {items : List CaseItem} (h : UniqueNames items) {path : List Str}
    {parent : Option Str} {i j : CaseItem} (hi : Leads items path parent i)
    (hj : Leads items path parent j) : i = j := by
  induction path generalizing parent with
  | nil => contradiction
  | cons name path ih =>
    cases path with
    | nil => exact eq_of_names h hi.1 hj.1 (hi.2.1.trans hj.2.1.symm) (hi.2.2.trans hj.2.2.symm)
    | cons name' path =>
      obtain ⟨f, hf, hfp, hfn, hif⟩ := hi
      obtain ⟨g, hg, hgp, hgn, hjg⟩ := hj
      obtain rfl := eq_of_names h hf hg (hfp.trans hgp.symm) (hfn.trans hgn.symm)
      exact ih hif hjg

/-- In a case that had no items, no two items with one parent have one name, and a path of names
leads to at most one item, as long as names are kept apart at every step. -/
theorem names_stay_unique (es : Elastic) (render : Str → Match → Str) (w : World)
    (calls : List Call) (hkeyed : ∀ k c, w.cases k = some c → c.caseId = k)
    (huids : Function.Injective w.uids) (hne : ∀ n, w.uids n ≠ [])
    (hok : Along (step es render) (fun w call => UidsFresh w call.operation ∧
      SuppliedNew w call.operation ∧ NamesKept es render w call.operation) w calls)
    (k : Str) (hempty : ∀ c, w.cases k = some c → c.items = []) (c : Case)
    (hc : (run (step es render) w calls).cases k = some c) :
    (c.items.Pairwise fun i j => i.parent = j.parent → i.name ≠ j.name) ∧
    ∀ path i j, Leads c.items path none i → Leads c.items path none j → i = j := by
  have hinv : Inv ⟨_, True, _⟩ _ :=
    inv_history hkeyed huids (fun _ => hne) (by simpa using hok)
  have hunique := (hinv.held k c hc hempty).tidy.unique trivial
  exact ⟨hunique, fun path i j hi hj => leads_unique hunique hi hj⟩

end Histories

/-- A store with one case, without items. -/
def emptyCaseWorld : World :=
  .ofDocuments [{ caseId := ['K'] }] [] (fun n => List.replicate (n + 1) 'u')
    ⟨0, some 0, Datetime.zero_nonneg, Datetime.zero_le_maxWall⟩

/-- Searches that find nothing. -/
def findsNothing : Elastic where
  withRules _ := []
  withItemValue _ _ := []
  search _ _ _ _ := .ok []

theorem replicate_injective : Function.Injective fun n => List.replicate (n + 1) 'u' := by
  intro m n h
  have hlen := congrArg List.length h
  simpa using hlen

/-- A folder with a supplied id, and a link in it. -/
def folderCalls : List Call :=
  [⟨.append ['K'] { type := .folder, id := some ['f'], name := some ['n'] }, true⟩,
   ⟨.appendNew ['K'] .reference ['v'] (some ['f']) none, true⟩]

theorem items_form_forest_folder : ∃ c,
    (run (step findsNothing (fun d _ => d)) emptyCaseWorld folderCalls).cases ['K'] = some c ∧
      (∀ i ∈ c.items, ∀ p, i.parent = some p → ∃ f ∈ c.items, f.id = p ∧ f.type = .folder) ∧
      (∀ i ∈ c.items, Rooted CaseItem.id CaseItem.parent c.items i) ∧
      ∀ i ∈ c.items, i.type = .case → i.parent = none := by
  refine ⟨_, rfl, items_form_forest findsNothing (fun d _ => d) emptyCaseWorld folderCalls
    (World.keyed_ofDocuments _ _ _ _).cases replicate_injective ?_ ['K'] ?_ _ rfl⟩
  · refine ⟨⟨fun id hid n _ => ?_, fun id hid c hc => ?_⟩, ⟨fun id hid => (by cases hid), trivial⟩,
      trivial⟩
    · obtain rfl : id = ['f'] := by simpa [Operation.supplied] using hid
      simp [emptyCaseWorld, World.ofDocuments, List.replicate_succ]
    · have hc' : some { caseId := ['K'] } = some c := hc
      simp [← Option.some.inj hc']
  · intro c hc
    have hc' : some { caseId := ['K'] } = some c := hc
    simp [← Option.some.inj hc']

/-- A folder, a link in it and a link with the id of the folder, which is then removed. -/
def sameIdCalls : List Call :=
  [⟨.append ['K'] { type := .folder, id := some ['f'], name := some ['n'] }, true⟩,
   ⟨.appendNew ['K'] .reference ['v'] (some ['f']) none, true⟩,
   ⟨.append ['K'] { type := .reference, id := some ['f'], value := some ['r'] }, true⟩,
   ⟨.remove ['K'] [['f']] false, true⟩]

/-- The link has taken the place of the folder among the ids: it goes without force, the folder with
it, and what was in the folder is left with a parent that does not exist. -/
theorem same_id_dangles :
    (emptyCaseWorld.cases ['K']).map (·.items) = some [] ∧
    (∀ call ∈ sameIdCalls, ∀ id ∈ call.operation.supplied, ∀ n, emptyCaseWorld.uids n ≠ id) ∧
    ∃ c, (run (step findsNothing (fun d _ => d)) emptyCaseWorld sameIdCalls).cases ['K'] = some c ∧
      ∃ i ∈ c.items, i.parent = some ['f'] ∧ ∀ f ∈ c.items, f.id ≠ ['f'] := by
  refine ⟨by rfl, fun call hcall id hid n => ?_, _, rfl, by decide⟩
  have hf : ∀ call ∈ sameIdCalls, ∀ id ∈ call.operation.supplied, id = ['f'] := by
    simp [sameIdCalls, Operation.supplied]
  rw [hf call hcall id hid]
  simp [emptyCaseWorld, World.ofDocuments, List.replicate_succ]

/-- A link, and a folder with its name. -/
def twiceNamedCalls : List Call :=
  [⟨.appendNew ['K'] .reference ['a'] none none, true⟩,
   ⟨.parentFromPath ['K'] (some ['a']), true⟩]

/-- `get_parent_from_path` looks for a folder only: a link and a folder are both called `a`. -/
theorem folder_beside_link :
    (emptyCaseWorld.cases ['K']).map (·.items) = some [] ∧
    ∃ c, (run (step findsNothing (fun d _ => d)) emptyCaseWorld twiceNamedCalls).cases ['K'] =
        some c ∧
      ∃ i ∈ c.items, ∃ j ∈ c.items, i.type = .reference ∧ j.type = .folder ∧
        i.parent = j.parent ∧ i.name = j.name := by
  refine ⟨by rfl, _, rfl, ?_⟩
  decide

/-- A store with a case without items, and two hits. -/
def twoHitsWorld : World :=
  .ofDocuments [{ caseId := ['K'] }]
    [(.hit, { id := ['g'], classification := ['C'] }),
     (.hit, { id := ['h'], classification := ['C'] })] (fun n => List.replicate (n + 1) 'u')
    ⟨0, some 0, Datetime.zero_nonneg, Datetime.zero_le_maxWall⟩

/-- Two hits under one name go into a folder, and a path leads through it. -/
def filingCalls : List Call :=
  [⟨.parentFromPath ['K'] (some "a".toList), true⟩,
   ⟨.appendNew ['K'] .hit ['g'] (some ['u']) (some ['n']), true⟩,
   ⟨.appendNew ['K'] .hit ['h'] (some ['u']) (some ['n']), true⟩,
   ⟨.parentFromPath ['K'] (some "a/b".toList), true⟩]

/-- The items after the first calls of these. -/
def filedItems : List CaseItem :=
  [{ id := ['u'], parent := none, name := some ['a'], type := .folder, value := ['a'] },
   { id := "uu".toList, parent := some ['u'], name := some ['n'], type := .hit, value := ['g'],
     classification := some ['C'] },
   { id := "uuu".toList, parent := some ['u'], name := some "n (h)".toList, type := .hit,
     value := ['h'], classification := some ['C'] },
   { id := "uuuu".toList, parent := some ['u'], name := some ['b'], type := .folder,
     value := ['b'] }]

theorem run_filingCalls {n : Nat} {c : Case}
    (hc : (run (step findsNothing (fun d _ => d)) twoHitsWorld (filingCalls.take n)).cases ['K'] =
      some c) : c.items = filedItems.take n := by
  have hitems : ((run (step findsNothing (fun d _ => d)) twoHitsWorld
      (filingCalls.take n)).cases ['K']).map (·.items) = some (filedItems.take n) := by
    obtain _ | _ | _ | _ | _ | n := n <;> rfl
  rw [hc] at hitems
  exact Option.some.inj hitems

/-- The name that a hit gets where its name is taken is free. -/
theorem namesFree_of_items {caseId value parent name : Str} {w : World} (hname : name ≠ [])
    (h : ∀ c, w.cases caseId = some c → ∀ j ∈ c.items,
      j.name ≠ some (name ++ " (".toList ++ value ++ ")".toList)) :
    NamesFree caseId
      { type := .hit, value := some value, parent := some parent, name := some name } w := by
  intro c hc i hi _ _ hconflict
  obtain ⟨j, hj, hjn, -⟩ := (checkConflicts_ok hconflict).mp rfl
  have hn : i.name = some name := by simpa [optionalText, hname] using hi.name
  have hv : i.value = value := by simpa using hi.value
  refine h c hc j hj (hjn.trans ?_)
  simp [Case.displayName, Case.renamed, named, hn, hv]

theorem names_stay_unique_filing : ∃ c,
    (run (step findsNothing (fun d _ => d)) twoHitsWorld filingCalls).cases ['K'] = some c ∧
      c.items = filedItems ∧
      (c.items.Pairwise fun i j => i.parent = j.parent → i.name ≠ j.name) ∧
      ∀ path i j, Leads c.items path none i → Leads c.items path none j → i = j := by
  refine ⟨_, rfl, by rfl, names_stay_unique findsNothing (fun d _ => d) twoHitsWorld filingCalls
    (World.keyed_ofDocuments _ _ _ _).cases replicate_injective (by simp [twoHitsWorld,
      World.ofDocuments]) ?_ ['K'] ?_ _ rfl⟩
  · refine ⟨⟨fun id hid => (by cases hid), trivial, fun c hc => ?_⟩,
      ⟨fun id hid => (by cases hid), trivial, ?_⟩, ⟨fun id hid => (by cases hid), trivial, ?_⟩,
      ⟨fun id hid => (by cases hid), trivial, fun c hc => ?_⟩, trivial⟩
    · rw [run_filingCalls (n := 0) hc]
      exact pathFree_of_empty (by simp [filedItems]) _
    · refine namesFree_of_items (by decide) fun c hc j hj => ?_
      rw [run_filingCalls (n := 1) hc] at hj
      have hfree : ∀ j ∈ filedItems.take 1, j.name ≠ some "n (g)".toList := by decide
      exact hfree j hj
    · refine namesFree_of_items (by decide) fun c hc j hj => ?_
      rw [run_filingCalls (n := 2) hc] at hj
      have hfree : ∀ j ∈ filedItems.take 2, j.name ≠ some "n (h)".toList := by decide
      exact hfree j hj
    · rw [run_filingCalls (n := 3) hc]
      -- the folder `a` is there, and nothing in it is called `b`
      have hfree : ∀ j ∈ filedItems.take 3, j.parent = some ['u'] → j.name ≠ some ['b'] := by
        decide
      exact hfree
  · intro c hc
    exact run_filingCalls (n := 0) hc

end Howler.Correlation
