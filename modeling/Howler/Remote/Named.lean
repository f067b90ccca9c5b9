import Mathlib.Data.Int.Notation
import Howler.Python.Text

namespace Howler.Remote

open Python

/-- The JSON texts of messages: what was dumped is loaded again. -/
structure Codec (T : Type*) where
  dumps : T → Str
  loads : Str → Option T
  loads_dumps : ∀ m, loads (dumps m) = some m

variable {T : Type*} (C : Codec T)

theorem Codec.dumps_inj {m m' : T} (h : C.dumps m = C.dumps m') : m = m' := by
  have hload := C.loads_dumps m
  rw [h, C.loads_dumps] at hload
  exact (Option.some.inj hload).symm

/-- What a call of the queue raises. -/
inductive QueueError where
  | responseError
  | valueError
  | howlerTypeError
  deriving DecidableEq, Repr

namespace NamedQueue

/-- `LPOP key count`: the head of the list, and an error for a negative count. -/
def lpop (q : List Str) (count : ℤ) : Except QueueError (List Str) × List Str :=
  if count < 0 then (.error .responseError, q)
  else (.ok (q.take count.toNat), q.drop count.toNat)

/-- `pop_batch`. -/
def popBatch (q : List Str) (size : ℤ) : Except QueueError (List T) × List Str :=
  match lpop q size with
  | (.error e, q) => (.error e, q)
  | (.ok response, q) =>
    match response.mapM C.loads with
    | some messages => (.ok messages, q)
    | none => (.error .valueError, q)

/-- `unpop`: one `LPUSH` for each message, in the order of the arguments. -/
def unpop (q : List Str) (messages : List T) : List Str :=
  messages.foldl (fun q message => C.dumps message :: q) q

/-- The last message that is given back becomes the first one of the queue. -/
theorem unpop_eq (q : List Str) (messages : List T) :
    unpop C q messages = messages.reverse.map C.dumps ++ q := by
  induction messages generalizing q with
  | nil => rfl
  | cons m messages ih =>
    have hstep : unpop C q (m :: messages) = unpop C (C.dumps m :: q) messages := rfl
    rw [hstep, ih]
    simp

theorem mapM_loads (messages : List T) :
    (messages.map C.dumps).mapM C.loads = some messages := by
  induction messages with
  | nil => rfl
  | cons m messages ih => simp [C.loads_dumps, ih]

/-- A batch is the head of the queue, and the rest stays. -/
theorem popBatch_eq (messages : List T) {size : ℤ} (h : 0 ≤ size) :
    popBatch C (messages.map C.dumps) size =
      (.ok (messages.take size.toNat), (messages.drop size.toNat).map C.dumps) := by
  have hlpop : lpop (messages.map C.dumps) size =
      (.ok ((messages.take size.toNat).map C.dumps), (messages.drop size.toNat).map C.dumps) := by
    rw [lpop, if_neg (by omega), List.map_take, List.map_drop]
  rw [popBatch, hlpop]
  simp only [mapM_loads]

/-- A batch that is taken and given back leaves the queue as it was. -/
def Restores (messages : List T) (size : ℤ) : Prop :=
  ∀ batch q, popBatch C (messages.map C.dumps) size = (.ok batch, q) →
    unpop C q batch = messages.map C.dumps

/-- Taking a batch and giving it back restores the queue exactly where the batch reads the same
from both ends. -/
theorem unpop_batch_iff (messages : List T) (size : ℤ) :
    Restores C messages size ↔
      (messages.take size.toNat).reverse = messages.take size.toNat := by
  by_cases hneg : size < 0
  · have hlpop : lpop (messages.map C.dumps) size =
        (.error .responseError, messages.map C.dumps) := if_pos hneg
    have hzero : size.toNat = 0 := by omega
    rw [hzero]
    refine ⟨fun _ => rfl, fun _ batch q h => ?_⟩
    rw [popBatch, hlpop] at h
    cases h
  · have hpop := @popBatch_eq T C messages size (by omega)
    have hsplit : messages.map C.dumps = (messages.take size.toNat).map C.dumps ++
        (messages.drop size.toNat).map C.dumps := by
      rw [← List.map_append, List.take_append_drop]
    constructor
    · intro h
      have hback := h _ _ hpop
      rw [unpop_eq, hsplit] at hback
      exact List.map_injective_iff.mpr (fun _ _ => C.dumps_inj) (List.append_cancel_right hback)
    · intro h batch q hbatch
      rw [hpop] at hbatch
      cases hbatch
      rw [unpop_eq, h, ← hsplit]

end NamedQueue

/-- The JSON texts of truth values. -/
def Codec.bool : Codec Bool where
  dumps b := if b then "true".toList else "false".toList
  loads s :=
    if s = "true".toList then some true else if s = "false".toList then some false else none
  loads_dumps := by decide

/-- Two messages come back in the other order. -/
theorem unpop_reorders : ¬ NamedQueue.Restores Codec.bool [true, false] 2 := by
  intro h
  have hback := h _ _ (NamedQueue.popBatch_eq Codec.bool [true, false] (by decide))
  exact absurd hback (by decide)

end Howler.Remote
