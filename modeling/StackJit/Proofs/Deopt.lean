import Mathlib.Data.List.Forall2
import StackJit.Native.Bridge
import StackJit.Proofs.Handles
import StackJit.Proofs.Runs

/-!
# Abandoning native code

A native frame that holds the operands, the arguments and the receiver of a method that has come to
some instruction is as good as the machine's own frame there, unless the method has assigned a
local: frames hold none. Handed to the interpreter it gives the answer that the whole run gives.

Reading the frame back is `HandleTable.rebuild_append`, and going on from the frame is
`Activation.resume_after`. Main statement: `Bridge.resume_frame`.
-/

namespace StackJit

/-! ## Reading frames -/

namespace HandleTable

variable {t : HandleTable}

/-- The words name the values, one by one. -/
def Names (t : HandleTable) (words : List Word) (vs : List Value) : Prop :=
  List.Forall₂ (fun w v => t.value w = .ok v) words vs

theorem Names.values {words : List Word} {vs : List Value} (h : t.Names words vs) :
    t.values words = .ok vs := by
  induction h with
  | nil => rfl
  | cons hw _ ih => rw [HandleTable.values, hw, ih]

/-- A frame with operands from the top of the stack down, arguments from the last to the first and
the receiver, whatever follows them. -/
theorem rebuild_append {map : DeoptMap} {words rest : List Word} {stack args : List Value}
    {receiver : Value} (hstack : map.stack.length = stack.length)
    (hargs : map.args.length = args.length)
    (hwords : t.Names words (stack ++ args.reverse ++ [receiver])) :
    t.rebuild map (words ++ rest) = .ok ⟨receiver, args, stack.reverse, ∅⟩ := by
  have hsize : words.length = map.frameSize := by
    rw [List.Forall₂.length_eq hwords, DeoptMap.frameSize, hstack, hargs]
    simp [Nat.add_assoc]
  have hreverse : map.args.length = args.reverse.length := by rw [List.length_reverse, hargs]
  have hlong : ¬ (words ++ rest).length < map.frameSize := by
    rw [List.length_append, hsize]
    exact Nat.not_lt.mpr (Nat.le_add_right _ _)
  rw [rebuild, if_neg hlong, List.take_left' hsize, hwords.values, List.append_assoc]
  simp only [hstack, List.drop_left, List.take_left, hreverse, List.reverse_reverse,
    List.headD_cons]

end HandleTable

/-! ## Going on from a frame -/

theorem Locals.eq_empty {locals : Locals} (h : locals.isEmpty) : locals = ∅ := by
  obtain ⟨⟨inner, hwf⟩⟩ := locals
  cases inner with
  | leaf => rfl
  | inner => cases h

/-- A run goes on from wherever it has come to. -/
theorem Activation.resume_after {a : Activation} {n : Nat} {f : Frame}
    (h : a.after n .entry = some f) (budget : Nat) :
    a.resume budget f = a.resume (n + budget) .entry := by
  have hip : f.ip ≤ a.code.size := Activation.ip_le_of_after (Nat.zero_le _) h
  rw [resume, if_pos hip, resume_entry, run_after h]

/-! ## Resuming -/

/-- The map is for the instruction that the frame has come to, with a slot for each operand and each
argument. -/
structure DeoptMap.Describes (map : DeoptMap) (a : Activation) (f : Frame) : Prop where
  code : map.code = a.code
  ip : map.ip = f.ip
  stack : map.stack.length = f.stack.length
  args : map.args.length = a.args.length

/-- The machine takes over in the very frame that it would have come to by itself. -/
theorem DeoptMap.Describes.frame_eq {map : DeoptMap} {a : Activation} {f : Frame}
    (h : map.Describes a f) (hlocals : f.locals.isEmpty) :
    Deopt.frame ⟨map, ⟨a.receiver, a.args, f.stack.reverse, ∅⟩⟩ = f := by
  rw [Deopt.frame, RebuiltFrame.frame, Frame.resumeAt, List.reverse_reverse, h.ip,
    ← Locals.eq_empty hlocals]

theorem DeoptMap.Describes.activation_eq {map : DeoptMap} {a : Activation} {f : Frame}
    (h : map.Describes a f) {stack : List Value} {locals : Locals} :
    Deopt.activation ⟨map, ⟨a.receiver, a.args, stack, locals⟩⟩ = a := by
  rw [Deopt.activation, RebuiltFrame.activation, h.code]

namespace Bridge

variable {b : Bridge}

theorem exists_handleOf (hroom : b.table.size < 2 ^ 32 - 1) (v : Value) :
    ∃ w b', b.handleOf v = (.ok w, b') ∧ b'.valueOf w = .ok v := by
  obtain ⟨w, t, hinsert⟩ := HandleTable.exists_insert hroom (.value v)
  refine ⟨w, { b with table := t }, ?_, HandleTable.value_of_insert hinsert⟩
  rw [handleOf, hinsert]

theorem resume_of_decodeDeopt {frame : List Word} {mapWord : Word} {d : Deopt}
    (h : b.decodeDeopt frame mapWord = .ok d) :
    b.resume frame mapWord =
      match b.interpreter d.activation d.frame with
      | none => none
      | some (.error e) => some ⟨.error (.dispatch e), b, if b.observed then some d else none⟩
      | some (.ok v) =>
        some ⟨(b.handleOf v).1, (b.handleOf v).2, if b.observed then some d else none⟩ := by
  cases hrun : b.interpreter d.activation d.frame with
  | none => simp only [resume, h, hrun]
  | some result =>
    cases result with
    | error e => simp only [resume, h, hrun]
    | ok v => simp only [resume, h, hrun]

/-- Abandoning native code goes unnoticed: with `budget` steps the interpreter comes from there to
what the whole run comes to with those steps and the `n` before, the same value, the same failure or
no end. The observer is told the receiver, the arguments and the operands as they were. -/
theorem resume_frame {a : Activation} {f : Frame} {map : DeoptMap} {n budget serial : Nat}
    {mapWord : Word} {words : List Word} (hafter : a.after n .entry = some f)
    (hlocals : f.locals.isEmpty) (hinterpreter : b.interpreter = fun a f => a.resume budget f)
    (hroom : b.table.size < 2 ^ 32 - 1) (hmap : b.table.deoptMap mapWord = .ok (serial, map))
    (hdescribes : map.Describes a f)
    (hwords : b.table.Names words (f.stack ++ a.args.reverse ++ [a.receiver]))
    (rest : List Word) :
    let notice : Option Deopt :=
      if b.observed then some ⟨map, ⟨a.receiver, a.args, f.stack.reverse, ∅⟩⟩ else none
    match a.resume (n + budget) .entry with
    | none => b.resume (words ++ rest) mapWord = none
    | some (.error e) =>
      b.resume (words ++ rest) mapWord = some ⟨.error (.dispatch e), b, notice⟩
    | some (.ok v) => ∃ w b',
      b.resume (words ++ rest) mapWord = some ⟨.ok w, b', notice⟩ ∧ b'.valueOf w = .ok v := by
  let d : Deopt := ⟨map, ⟨a.receiver, a.args, f.stack.reverse, ∅⟩⟩
  have hdecode : b.decodeDeopt (words ++ rest) mapWord = .ok d := by
    rw [decodeDeopt, hmap]
    dsimp only
    rw [HandleTable.rebuild_append hdescribes.stack hdescribes.args hwords]
  have hrun : b.interpreter d.activation d.frame = a.resume (n + budget) .entry := by
    rw [hinterpreter, hdescribes.activation_eq, hdescribes.frame_eq hlocals]
    exact Activation.resume_after hafter budget
  intro notice
  split
  · next h => rw [resume_of_decodeDeopt hdecode, hrun, h]
  · next e h => rw [resume_of_decodeDeopt hdecode, hrun, h]
  · next v h =>
    obtain ⟨w, b', hhandle, hvalue⟩ := exists_handleOf hroom v
    refine ⟨w, b', ?_, hvalue⟩
    rw [resume_of_decodeDeopt hdecode, hrun, h]
    dsimp only
    rw [hhandle]

end Bridge

def Code.differences : Code :=
  #[.arg 1, .arg 0, .push (.int 7), .send "-" 1, .send "-" 1, .ret]

/-- A bridge in which the operands before the first difference have words, and the arguments and the
receiver, and a map for that place. -/
def Bridge.atDifference : Bridge :=
  let b := ((Bridge.new 10 true).handlesOf [.int 7, .int 5, .int 9, .nil]).2
  (b.addMap ⟨Code.differences, 3, [0, 1, 2], [3, 4]⟩).2

theorem Bridge.resume_frame_differences :
    let a : Activation := ⟨Code.differences, .nil, [.int 5, .int 9]⟩
    let f : Frame := ⟨3, [.int 7, .int 5, .int 9], ∅⟩
    let map : DeoptMap := ⟨Code.differences, 3, [0, 1, 2], [3, 4]⟩
    let words : List Word :=
      [0x100000001, 0x100000002, 0x100000003, 0x100000003, 0x100000002, 0x100000004]
    a.after 3 .entry = some f ∧ f.locals.isEmpty ∧ atDifference.table.size < 2 ^ 32 - 1 ∧
      atDifference.table.deoptMap 0x100000005 = .ok (0, map) ∧ map.Describes a f ∧
      atDifference.table.Names words (f.stack ++ a.args.reverse ++ [a.receiver]) ∧
      a.resume 13 .entry = some (.ok (.int 11)) ∧
      ∃ w b', atDifference.resume (words ++ [0, 0x100000001]) 0x100000005 =
          some ⟨.ok w, b', some ⟨map, ⟨.nil, [.int 5, .int 9], [.int 9, .int 5, .int 7], ∅⟩⟩⟩ ∧
        b'.valueOf w = .ok (.int 11) := by
  intro a f map words
  have hafter : a.after 3 .entry = some f := rfl
  have hroom : atDifference.table.size < 2 ^ 32 - 1 := by decide +kernel
  have hmap : atDifference.table.deoptMap 0x100000005 = .ok (0, map) := by rfl
  have hdescribes : map.Describes a f := ⟨rfl, rfl, rfl, rfl⟩
  have hwords : atDifference.table.Names words (f.stack ++ a.args.reverse ++ [a.receiver]) := by
    refine .cons ?_ (.cons ?_ (.cons ?_ (.cons ?_ (.cons ?_ (.cons ?_ .nil))))) <;> rfl
  have hrun : a.resume 13 .entry = some (.ok (.int 11)) := by rfl
  have hinterpreter : atDifference.interpreter = fun a f => a.resume 10 f := rfl
  have hresume := resume_frame hafter rfl hinterpreter hroom hmap hdescribes hwords [0, 0x100000001]
  exact ⟨hafter, rfl, hroom, hmap, hdescribes, hwords, hrun, hresume⟩

end StackJit
