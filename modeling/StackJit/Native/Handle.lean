import StackJit.Graph.Node
import StackJit.Instr
import StackJit.Native.Error

/-!
# Handles

Native code never holds a managed value, only a word that names an entry of a handle table. Equal
values get the same word, and so does a deopt map each time it is asked for, so words can be
compared instead of what they name.

A word holds the generation of the table in its upper half and the number of the entry, counted
from one, in its lower half. Zero is never a handle. `HandleTable.reset` drops every entry and moves
to the next generation, so that the words given out before name nothing any more.

A table finds the entry of a word by its number, and the entry of a referent by its key; that both
ways lead to the same entries is part of the table (`HandleTable.indexed`).
-/

namespace StackJit

/-- How to rebuild the state of the machine at instruction `ip` from a native frame: the nodes whose
values are the operands and the arguments. -/
structure DeoptMap where
  code : Code
  ip : Nat
  stack : List NodeId
  args : List NodeId
deriving DecidableEq, Repr

/-- The words that a frame needs: operands, arguments and the receiver. -/
def DeoptMap.frameSize (map : DeoptMap) : Nat := map.stack.length + map.args.length + 1

/-- What a handle names. -/
inductive Referent where
  | value (v : Value)
  | deoptMap (serial : Nat) (map : DeoptMap)
deriving DecidableEq, Repr

namespace Referent

def kind : Referent → ReferentKind
  | value _ => .value
  | deoptMap _ _ => .deoptMap

/-- What tells referents apart: values are what they are, and deopt maps go by their serial numbers,
whatever they hold. -/
inductive Key where
  | value (v : Value)
  | deoptMap (serial : Nat)
deriving DecidableEq, Repr

def key : Referent → Key
  | value v => .value v
  | deoptMap serial _ => .deoptMap serial

end Referent

namespace HandleTable

/-- The bits of a word that number an entry. -/
def slotMask : Word := 0xffffffff

def slotBits : Word := 32

end HandleTable

structure HandleTable where
  entries : Array Referent
  /-- The index of the entry for each key that has one. -/
  slots : List (Referent.Key × Nat)
  generation : Word
  indexed : ∀ key index,
    slots.lookup key = some index ↔ entries[index]?.map Referent.key = some key
  fits : entries.size ≤ HandleTable.slotMask.toNat
  stamped : generation &&& HandleTable.slotMask ≠ 0
deriving DecidableEq, Repr

namespace HandleTable

def empty : HandleTable where
  entries := #[]
  slots := []
  generation := 1
  indexed key index := by simp
  fits := Nat.zero_le _
  stamped := by decide

instance : Inhabited HandleTable := ⟨empty⟩

def size (t : HandleTable) : Nat := t.entries.size

/-- What the upper half of the words of this generation holds. -/
def stamp (t : HandleTable) : Word := t.generation &&& slotMask

/-- The word for the entry at an index. -/
def wordAt (t : HandleTable) (index : Nat) : Word :=
  (t.stamp <<< slotBits) ||| UInt64.ofNat (index + 1)

/-- An index stays in step when a new key gets the next entry. -/
theorem indexed_push {entries : Array Referent} {slots : List (Referent.Key × Nat)} {r : Referent}
    (h : ∀ key index, slots.lookup key = some index ↔ entries[index]?.map Referent.key = some key)
    (hnew : slots.lookup r.key = none) (key : Referent.Key) (index : Nat) :
    ((r.key, entries.size) :: slots).lookup key = some index ↔
      (entries.push r)[index]?.map Referent.key = some key := by
  rw [List.lookup_cons, Array.getElem?_push]
  by_cases hlast : index = entries.size
  · rw [if_pos hlast, Option.map_some, Option.some.injEq, hlast]
    cases hkey : key == r.key with
    | true => simp [beq_iff_eq.mp hkey]
    | false =>
      have hnone : slots.lookup key ≠ some entries.size := by
        rw [Ne, h, Array.getElem?_eq_none (Nat.le_refl _)]
        simp
      simp [hnone, Ne.symm (beq_eq_false_iff_ne.mp hkey)]
  · rw [if_neg hlast, ← h]
    cases hkey : key == r.key with
    | true => simp [beq_iff_eq.mp hkey, hnew, Ne.symm hlast]
    | false => rfl

/-- A table with one more entry, for a referent that has none. -/
def push (t : HandleTable) (r : Referent) (hnew : t.slots.lookup r.key = none)
    (hroom : t.size + 1 ≤ slotMask.toNat) : HandleTable where
  entries := t.entries.push r
  slots := (r.key, t.size) :: t.slots
  generation := t.generation
  indexed := indexed_push t.indexed hnew
  fits := by
    rw [Array.size_push]
    exact hroom
  stamped := t.stamped

/-- The word for a referent, which becomes a new entry unless it has one. -/
def insert (t : HandleTable) (r : Referent) : Except BridgeError Word × HandleTable :=
  match hslot : t.slots.lookup r.key with
  | some index => (.ok (t.wordAt index), t)
  | none =>
    if hfull : t.size + 1 > slotMask.toNat then (.error .tableFull, t)
    else (.ok (t.wordAt t.size), t.push r hslot (Nat.le_of_not_lt hfull))

/-- What a word names. -/
def get (t : HandleTable) (word : Word) : Except BridgeError Referent :=
  let slot := word &&& slotMask
  if slot = 0 ∨ word >>> slotBits ≠ t.stamp then .error (.unknownHandle word)
  else
    match t.entries[slot.toNat - 1]? with
    | some r => .ok r
    | none => .error (.unknownHandle word)

/-- The value that a word names. -/
def value (t : HandleTable) (word : Word) : Except BridgeError Value :=
  match t.get word with
  | .ok (.value v) => .ok v
  | .ok other => .error (.wrongKind word .value other.kind)
  | .error e => .error e

/-- The deopt map that a word names, with its serial number. -/
def deoptMap (t : HandleTable) (word : Word) : Except BridgeError (Nat × DeoptMap) :=
  match t.get word with
  | .ok (.deoptMap serial map) => .ok (serial, map)
  | .ok other => .error (.wrongKind word .deoptMap other.kind)
  | .error e => .error e

/-- The values that words name, up to the first word that names none. -/
def values (t : HandleTable) : List Word → Except BridgeError (List Value)
  | [] => .ok []
  | word :: rest =>
    match t.value word with
    | .error e => .error e
    | .ok v =>
      match values t rest with
      | .error e => .error e
      | .ok vs => .ok (v :: vs)

/-- The generation after the last one that fits the upper half of a word is the first. -/
def nextGeneration (t : HandleTable) : Word :=
  if t.generation + 1 &&& slotMask = 0 then 1 else t.generation + 1

/-- Drops every entry. -/
def reset (t : HandleTable) : HandleTable where
  entries := #[]
  slots := []
  generation := t.nextGeneration
  indexed key index := by simp
  fits := Nat.zero_le _
  stamped := by
    unfold nextGeneration
    split
    · decide
    · next hnext => exact hnext

end HandleTable

end StackJit
