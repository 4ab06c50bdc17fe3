import StackJit.RunError

/-!
# Failures between native and managed code

Native code works on 64-bit words. The causes for which a word, a pointer or a call is refused, and
the text that reports each; words are written in hexadecimal.
-/

namespace StackJit

abbrev Word := UInt64

/-- A word in hexadecimal, with the least number of digits. -/
def Word.hex (w : Word) : String := "0x" ++ String.ofList (Nat.toDigits 16 w.toNat)

/-- What a handle can name. -/
inductive ReferentKind where
  | value
  | deoptMap
deriving DecidableEq, Repr

def ReferentKind.name : ReferentKind → String
  | value => "value"
  | deoptMap => "deopt map"

/-- What native code passes by address. -/
inductive PointerRole where
  | words
  | frame
deriving DecidableEq, Repr

def PointerRole.name : PointerRole → String
  | words => "words"
  | frame => "frame"

inductive BridgeError where
  | unknownHandle (word : Word)
  | wrongKind (word : Word) (expected found : ReferentKind)
  /-- The managed code that was called failed. -/
  | dispatch (cause : RunError)
  | nullPointer (role : PointerRole)
  | misaligned (pointer : Word)
  | invalidFrame (fp sp : Word)
  | frameTooSmall (needed available : Nat)
  | truncatedCall (words : Nat)
  | nativeArity (expected given : Nat)
  | tableFull
deriving DecidableEq, Repr

def BridgeError.message : BridgeError → String
  | unknownHandle word => s!"Unknown handle {word.hex}"
  | wrongKind word expected found =>
    s!"Handle {word.hex} names a {found.name}, expected a {expected.name}"
  | dispatch cause => cause.message
  | nullPointer role => s!"Null pointer passed for {role.name}"
  | misaligned pointer => s!"Misaligned pointer {pointer.hex}"
  | invalidFrame fp sp => s!"Invalid native frame [{sp.hex}, {fp.hex})"
  | frameTooSmall needed available =>
    s!"Native frame holds {available} words but {needed} are needed"
  | truncatedCall words =>
    s!"Managed call needs a receiver and a method name, got {words} words"
  | nativeArity expected given => s!"Native function takes {expected} arguments, got {given}"
  | tableFull => "Handle table is full"

end StackJit
