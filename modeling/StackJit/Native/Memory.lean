import StackJit.Native.Error

/-!
# Memory as native code passes it

Native code passes words by the address of the first, a frame by the addresses of its ends. An
address is refused if it is null or not a multiple of the word size.
-/

namespace StackJit

/-- The word at each aligned address. -/
structure Memory where
  word : Word → Word

namespace Memory

/-- The number of bytes in a word. -/
def wordSize : Word := 8

/-- A memory that holds `words` from the address `base` on. -/
def holding (base : Word) (words : List Word) : Memory :=
  ⟨fun address => words.getD ((address - base) / wordSize).toNat 0⟩

/-- Reads `count` words from an address on. -/
def read (mem : Memory) (pointer : Word) (count : Nat) : Except BridgeError (List Word) :=
  if pointer = 0 then .error (.nullPointer .words)
  else if pointer % wordSize ≠ 0 then .error (.misaligned pointer)
  else .ok ((List.range count).map fun i => mem.word (pointer + wordSize * UInt64.ofNat i))

/-- Reads a message with `argc` arguments: receiver and name come first. -/
def readMessage (mem : Memory) (pointer argc : Word) : Except BridgeError (List Word) :=
  if argc.toNat + 2 < UInt64.size then mem.read pointer (argc.toNat + 2)
  else .error (.truncatedCall argc.toNat)

/-- Reads the words from the stack pointer up to the frame pointer. -/
def readFrame (mem : Memory) (fp sp : Word) : Except BridgeError (List Word) :=
  if fp = 0 ∨ sp = 0 then .error (.nullPointer .frame)
  else if fp < sp ∨ (fp - sp) % wordSize ≠ 0 then .error (.invalidFrame fp sp)
  else mem.read sp ((fp - sp) / wordSize).toNat

end Memory

end StackJit
