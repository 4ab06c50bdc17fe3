import StackJit.Proofs.Deopt

/-!
# Reading native frames

Which state is read from a frame (`HandleTable.rebuild_eq_ok_iff`), and which failure is reported
otherwise (`HandleTable.rebuild_eq_error_iff`), for every table, map and frame. The words that a map
asks for are looked up from the stack pointer upward, so the first one that names no value decides;
the words of the caller, which come after them, are never looked at.

Main statement: `HandleTable.rebuild_exact`.
-/

namespace StackJit

/-- A stack that grows downward, after words have been pushed onto it one by one. -/
def pushWords (stack words : List Word) : List Word := words.foldl (fun stack w => w :: stack) stack

theorem pushWords_eq (stack words : List Word) : pushWords stack words = words.reverse ++ stack :=
  List.foldl_flip_cons_eq_append'

namespace HandleTable

variable {t : HandleTable} {words : List Word} {vs : List Value} {e : BridgeError} {map : DeoptMap}
  {frame : List Word} {s : RebuiltFrame}

/-! ## Looking up words -/

/-- A word that names no value is unknown or names something else, and the failure says which. -/
theorem value_error {w : Word} (h : t.value w = .error e) :
    e = .unknownHandle w ∨ ∃ found, e = .wrongKind w .value found := by
  unfold value at h
  split at h
  · cases h
  · exact .inr ⟨_, (Except.error.inj h).symm⟩
  · next hget => exact .inl (Except.error.inj h ▸ get_error hget)

/-- Every word names a value. -/
def NamesAll (t : HandleTable) (words : List Word) : Prop := ∀ w ∈ words, ∃ v, t.value w = .ok v

theorem Names.namesAll (h : t.Names words vs) : t.NamesAll words := by
  induction h with
  | nil => exact fun _ hw => absurd hw List.not_mem_nil
  | cons hv _ ih => exact List.forall_mem_cons.mpr ⟨⟨_, hv⟩, ih⟩

theorem NamesAll.exists_names (h : t.NamesAll words) : ∃ vs, t.Names words vs := by
  induction words with
  | nil => exact ⟨[], .nil⟩
  | cons w words ih =>
    obtain ⟨⟨v, hv⟩, hwords⟩ := List.forall_mem_cons.mp h
    obtain ⟨vs, hvs⟩ := ih hwords
    exact ⟨v :: vs, .cons hv hvs⟩

/-- The lookup of `w` is the first among those of `words` that fails, and it fails with `e`. -/
def FailsFirst (t : HandleTable) (words : List Word) (w : Word) (e : BridgeError) : Prop :=
  ∃ before after, words = before ++ w :: after ∧ t.NamesAll before ∧ t.value w = .error e

theorem FailsFirst.cons {u w : Word} {v : Value} (hu : t.value u = .ok v) :
    t.FailsFirst (u :: words) w e ↔ t.FailsFirst words w e := by
  constructor
  · rintro ⟨before, after, hwords, hbefore, hw⟩
    cases before with
    | nil =>
      obtain ⟨rfl, -⟩ := List.cons.inj hwords
      rw [hu] at hw
      cases hw
    | cons u' before =>
      obtain ⟨rfl, rfl⟩ := List.cons.inj hwords
      exact ⟨before, after, rfl, (List.forall_mem_cons.mp hbefore).2, hw⟩
  · rintro ⟨before, after, rfl, hbefore, hw⟩
    exact ⟨u :: before, after, rfl, List.forall_mem_cons.mpr ⟨⟨v, hu⟩, hbefore⟩, hw⟩

theorem values_eq_ok_iff : t.values words = .ok vs ↔ t.Names words vs := by
  refine ⟨fun h => ?_, Names.values⟩
  induction words generalizing vs with
  | nil =>
    cases h
    exact .nil
  | cons w words ih =>
    unfold values at h
    split at h
    · cases h
    · next v hv =>
      split at h
      · cases h
      · next vs' hvs =>
        cases h
        exact .cons hv (ih hvs)

theorem values_eq_error_iff : t.values words = .error e ↔ ∃ w, t.FailsFirst words w e := by
  induction words with
  | nil => simp [values, FailsFirst]
  | cons u words ih =>
    cases hu : t.value u with
    | ok v =>
      simp only [FailsFirst.cons hu, ← ih, values, hu]
      cases t.values words <;> simp
    | error e' =>
      simp only [values, hu, Except.error.injEq]
      constructor
      · rintro rfl
        exact ⟨u, [], words, rfl, fun _ hw => absurd hw List.not_mem_nil, hu⟩
      · rintro ⟨w, before, after, hwords, hbefore, hw⟩
        cases before with
        | nil =>
          obtain ⟨rfl, -⟩ := List.cons.inj hwords
          exact Except.error.inj (hu.symm.trans hw)
        | cons u' before =>
          obtain ⟨rfl, -⟩ := List.cons.inj hwords
          obtain ⟨v, hv⟩ := hbefore u List.mem_cons_self
          rw [hu] at hv
          cases hv

/-! ## Frames -/

/-- The frame holds the state `s` as the map lays it out: the operands from the top of the stack
down, the arguments from the last to the first, and the receiver. -/
structure Holds (t : HandleTable) (map : DeoptMap) (frame : List Word) (s : RebuiltFrame) :
    Prop where
  stack : t.Names (frame.take map.stack.length) s.stack.reverse
  args : t.Names ((frame.drop map.stack.length).take map.args.length) s.args.reverse
  receiver : ∃ w, frame[map.stack.length + map.args.length]? = some w ∧ t.value w = .ok s.receiver
  locals : s.locals = ∅

theorem take_frameSize (h : map.frameSize ≤ frame.length) : ∃ w,
    frame[map.stack.length + map.args.length]? = some w ∧ frame.take map.frameSize =
      frame.take map.stack.length ++ (frame.drop map.stack.length).take map.args.length ++ [w] := by
  have hlt : map.stack.length + map.args.length < frame.length := h
  refine ⟨frame[map.stack.length + map.args.length], List.getElem?_eq_getElem hlt, ?_⟩
  rw [DeoptMap.frameSize, List.take_succ_eq_append_getElem hlt, List.take_add]

theorem Names.split {upper lower : List Word} (h : t.Names (upper ++ lower) vs) :
    ∃ us ls, vs = us ++ ls ∧ t.Names upper us ∧ t.Names lower ls :=
  ⟨vs.take upper.length, vs.drop upper.length, (List.take_append_drop _ _).symm,
    (List.forall₂_take_append vs upper lower h.flip).flip,
    (List.forall₂_drop_append vs upper lower h.flip).flip⟩

theorem Holds.names (h : t.Holds map frame s) : map.frameSize ≤ frame.length ∧
    t.Names (frame.take map.frameSize) (s.stack.reverse ++ s.args.reverse ++ [s.receiver]) := by
  obtain ⟨w, hw, hv⟩ := h.receiver
  have hlong : map.frameSize ≤ frame.length := (List.getElem?_eq_some_iff.mp hw).1
  obtain ⟨w', hw', htake⟩ := take_frameSize hlong
  obtain rfl : w' = w := Option.some.inj (hw'.symm.trans hw)
  rw [htake]
  exact ⟨hlong, List.rel_append (List.rel_append h.stack h.args) (.cons hv .nil)⟩

/-- A frame that is long enough holds a state if its words name values. -/
theorem exists_holds (hlong : map.frameSize ≤ frame.length)
    (hall : t.NamesAll (frame.take map.frameSize)) : ∃ s, t.Holds map frame s := by
  obtain ⟨vs, hvs⟩ := hall.exists_names
  obtain ⟨w, hw, htake⟩ := take_frameSize hlong
  rw [htake] at hvs
  obtain ⟨upper, receiver, -, hupper, hreceiver⟩ := hvs.split
  obtain ⟨stack, args, -, hstack, hargs⟩ := hupper.split
  obtain ⟨v, -, hv, -, -⟩ := List.forall₂_cons_left_iff.mp hreceiver
  refine ⟨⟨v, args.reverse, stack.reverse, ∅⟩, ?_, ?_, ⟨w, hw, hv⟩, rfl⟩
  · rwa [List.reverse_reverse]
  · rwa [List.reverse_reverse]

/-- What a frame holds is read from it. -/
theorem Holds.rebuild (h : t.Holds map frame s) : t.rebuild map frame = .ok s := by
  obtain ⟨hlong, hnames⟩ := h.names
  rw [DeoptMap.frameSize] at hlong
  have hstack : map.stack.length = s.stack.reverse.length := by
    rw [← h.stack.length_eq, List.length_take]
    omega
  have hargs : map.args.length = s.args.length := by
    rw [← s.args.length_reverse, ← h.args.length_eq, List.length_take, List.length_drop]
    omega
  calc t.rebuild map frame
    _ = t.rebuild map (frame.take map.frameSize ++ frame.drop map.frameSize) := by
      rw [List.take_append_drop]
    _ = .ok ⟨s.receiver, s.args, s.stack.reverse.reverse, ∅⟩ := rebuild_append hstack hargs hnames
    _ = .ok s := by rw [List.reverse_reverse, ← h.locals]

theorem rebuild_eq_error_iff : t.rebuild map frame = .error e ↔
    frame.length < map.frameSize ∧ e = .frameTooSmall map.frameSize frame.length ∨
      map.frameSize ≤ frame.length ∧ ∃ w, t.FailsFirst (frame.take map.frameSize) w e := by
  rw [← values_eq_error_iff, rebuild]
  split
  · next hshort => simp [hshort, Nat.not_le.mpr hshort, @eq_comm _ e]
  · next hlong =>
    rw [and_iff_right (Nat.le_of_not_lt hlong)]
    cases t.values (frame.take map.frameSize) <;> simp [hlong]

theorem rebuild_eq_ok_iff : t.rebuild map frame = .ok s ↔ t.Holds map frame s := by
  refine ⟨fun h => ?_, Holds.rebuild⟩
  have hlong : map.frameSize ≤ frame.length := by
    by_contra hshort
    rw [rebuild_eq_error_iff.mpr (.inl ⟨Nat.lt_of_not_le hshort, rfl⟩)] at h
    cases h
  cases hvs : t.values (frame.take map.frameSize) with
  | error e =>
    rw [rebuild_eq_error_iff.mpr (.inr ⟨hlong, values_eq_error_iff.mp hvs⟩)] at h
    cases h
  | ok vs =>
    -- the frame holds some state, and there is but one to be read
    obtain ⟨s', hs'⟩ := exists_holds hlong (values_eq_ok_iff.mp hvs).namesAll
    rw [hs'.rebuild] at h
    exact Except.ok.inj h ▸ hs'

/-! ## Exactness -/

/-- The words after the ones that the map asks for make no difference. -/
theorem rebuild_take_append (hlong : map.frameSize ≤ frame.length) (later : List Word) :
    t.rebuild map (frame.take map.frameSize ++ later) = t.rebuild map frame := by
  have hlen : (frame.take map.frameSize).length = map.frameSize := List.length_take_of_le hlong
  have hlong' : map.frameSize ≤ (frame.take map.frameSize ++ later).length := by
    rw [List.length_append, hlen]
    exact Nat.le_add_right _ _
  rw [rebuild, if_neg (Nat.not_lt.mpr hlong'), List.take_left' hlen, rebuild,
    if_neg (Nat.not_lt.mpr hlong)]

theorem rebuild_eq_frameTooSmall_iff {needed available : Nat} :
    t.rebuild map frame = .error (.frameTooSmall needed available) ↔
      frame.length < map.frameSize ∧ needed = map.frameSize ∧ available = frame.length := by
  rw [rebuild_eq_error_iff, BridgeError.frameTooSmall.injEq]
  refine or_iff_left ?_
  rintro ⟨-, w, -, -, -, -, hw⟩
  rcases value_error hw with h | ⟨found, h⟩ <;> cases h

/-- What was pushed, the receiver first and the operands last, is read back. -/
theorem rebuild_pushWords {receiver : Value} {args stack : List Value} (caller : List Word)
    (hwords : t.Names words (receiver :: args ++ stack)) (hargs : args.length = map.args.length)
    (hstack : stack.length = map.stack.length) :
    t.rebuild map (pushWords caller words) = .ok ⟨receiver, args, stack, ∅⟩ := by
  have hreverse : t.Names words.reverse (stack.reverse ++ args.reverse ++ [receiver]) := by
    have h := List.forall₂_reverse_iff.mpr hwords
    rwa [List.reverse_append, List.reverse_cons, ← List.append_assoc] at h
  have hstack' : map.stack.length = stack.reverse.length := by rw [List.length_reverse, hstack]
  rw [pushWords_eq, rebuild_append hstack' hargs.symm hreverse, List.reverse_reverse]

/-- Reading a frame fails for its size iff it has fewer words than the map asks for. Otherwise a
state is read iff all of these words name values, and it is the state that they hold, whatever the
words after them are; and if one of them names no value, the failure is that of the first such word.
So what was pushed, the receiver first and the operands last, is read back. -/
theorem rebuild_exact (t : HandleTable) (map : DeoptMap) :
    (∀ frame,
      (∀ needed available, t.rebuild map frame = .error (.frameTooSmall needed available) ↔
        frame.length < map.frameSize ∧ needed = map.frameSize ∧ available = frame.length) ∧
      (map.frameSize ≤ frame.length →
        ((∃ s, t.rebuild map frame = .ok s) ↔ t.NamesAll (frame.take map.frameSize)) ∧
        (∀ s, t.rebuild map frame = .ok s → t.Holds map frame s) ∧
        (∀ later, t.rebuild map (frame.take map.frameSize ++ later) = t.rebuild map frame) ∧
        ∀ w e, t.FailsFirst (frame.take map.frameSize) w e → t.rebuild map frame = .error e)) ∧
    ∀ receiver args stack words caller, t.Names words (receiver :: args ++ stack) →
      args.length = map.args.length → stack.length = map.stack.length →
      t.rebuild map (pushWords caller words) = .ok ⟨receiver, args, stack, ∅⟩ := by
  refine ⟨fun frame => ⟨fun _ _ => rebuild_eq_frameTooSmall_iff, fun hlong => ⟨⟨?_, ?_⟩,
    fun s => rebuild_eq_ok_iff.mp, rebuild_take_append hlong, ?_⟩⟩, ?_⟩
  · rintro ⟨s, hs⟩
    exact (rebuild_eq_ok_iff.mp hs).names.2.namesAll
  · intro hall
    obtain ⟨s, hs⟩ := exists_holds hlong hall
    exact ⟨s, hs.rebuild⟩
  · intro w e hfails
    exact rebuild_eq_error_iff.mpr (.inr ⟨hlong, w, hfails⟩)
  · intro receiver args stack words caller hwords hargs hstack
    exact rebuild_pushWords caller hwords hargs hstack

end HandleTable

/-- A receiver, two arguments and three operands that were pushed onto the caller's words are read
back. If the word of a deopt map stands where the first argument is expected, it is what the reading
fails for, not the unknown word at the place of the receiver. -/
theorem Bridge.rebuild_exact_atDifference :
    let map : DeoptMap := ⟨Code.differences, 3, [0, 1, 2], [3, 4]⟩
    let words : List Word :=
      [0x100000004, 0x100000002, 0x100000003, 0x100000003, 0x100000002, 0x100000001]
    let frame : List Word := [0x100000001, 0x100000002, 0x100000003, 0x100000003, 0x100000005, 0, 7]
    atDifference.table.Names words [.nil, .int 5, .int 9, .int 9, .int 5, .int 7] ∧
      atDifference.table.rebuild map (pushWords [0, 0x100000001] words) =
        .ok ⟨.nil, [.int 5, .int 9], [.int 9, .int 5, .int 7], ∅⟩ ∧
      atDifference.table.rebuild map frame = .error (.wrongKind 0x100000005 .value .deoptMap) := by
  intro map words frame
  have hwords : atDifference.table.Names words [.nil, .int 5, .int 9, .int 9, .int 5, .int 7] := by
    refine .cons ?_ (.cons ?_ (.cons ?_ (.cons ?_ (.cons ?_ (.cons ?_ .nil))))) <;> rfl
  have hbefore : atDifference.table.Names [0x100000001, 0x100000002, 0x100000003, 0x100000003]
      [.int 7, .int 5, .int 9, .int 9] := by
    refine .cons ?_ (.cons ?_ (.cons ?_ (.cons ?_ .nil))) <;> rfl
  obtain ⟨hread, hpushed⟩ := HandleTable.rebuild_exact atDifference.table map
  obtain ⟨-, -, -, hfails⟩ := (hread frame).2 (by decide)
  exact ⟨hwords, hpushed .nil [.int 5, .int 9] [.int 9, .int 5, .int 7] words _ hwords rfl rfl,
    hfails 0x100000005 _ ⟨_, [0], rfl, hbefore.namesAll, rfl⟩⟩

end StackJit
