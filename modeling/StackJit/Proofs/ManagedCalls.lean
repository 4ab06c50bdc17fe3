import StackJit.Proofs.FrameReading

/-!
# Calls from native code

Native code calls with words: those of a receiver, of a name and of arguments, or those of a frame
that the interpreter is to go on from. A call takes several steps that may fail, and only the last
one, which asks for the word of the result, changes the bridge. So a call either does nothing at all
or gives the result a word, and then the words that were there before name what they did
(`HandleTable.Adds`).

Main statement: `Bridge.send_faithful`.
-/

namespace StackJit

/-! ## Asking for the word of a value -/

namespace HandleTable

variable {t t' : HandleTable} {v : Value} {w : Word} {e : BridgeError}

/-- In `t'` the word `w` names `v`. It is the only word that may not have named anything in `t`, and
all that did name what they named there. -/
structure Adds (t : HandleTable) (w : Word) (v : Value) (t' : HandleTable) : Prop where
  value : t'.value w = .ok v
  kept : ∀ {u r}, t.get u = .ok r → t'.get u = .ok r
  only : ∀ {u r}, t'.get u = .ok r → t.get u = .ok r ∨ u = w
  entries : t'.entries = t.entries ∨ t'.entries = t.entries.push (.value v)
  generation : t'.generation = t.generation

theorem adds_of_insert (h : t.insert (.value v) = (.ok w, t')) : t.Adds w v t' := by
  have hvalue := value_of_insert h
  obtain ⟨_, _, -, -, hinsert⟩ | ⟨-, hinsert⟩ | ⟨hnew, hroom, hinsert⟩ := t.insert_cases (.value v)
  · rw [hinsert] at h
    obtain ⟨-, rfl⟩ := Prod.mk.inj h
    exact ⟨hvalue, id, .inl, .inl rfl, rfl⟩
  · rw [hinsert] at h
    cases h
  · rw [hinsert, Prod.mk.injEq, Except.ok.injEq] at h
    obtain ⟨rfl, rfl⟩ := h
    refine ⟨hvalue, fun hget => ?_, fun hget => ?_, .inr rfl, rfl⟩
    · exact (get_push hnew hroom).mpr (.inl hget)
    · exact ((get_push hnew hroom).mp hget).imp id And.left

theorem eq_of_insert_error {r : Referent} (h : t.insert r = (.error e, t')) : t' = t := by
  obtain ⟨_, _, -, -, hinsert⟩ | ⟨-, hinsert⟩ | ⟨_, _, hinsert⟩ := t.insert_cases r
  · rw [hinsert] at h
    cases h
  · rw [hinsert] at h
    exact (Prod.mk.inj h).2.symm
  · rw [hinsert] at h
    cases h

theorem names_cons {words : List Word} {vs : List Value} :
    t.Names (w :: words) (v :: vs) ↔ t.value w = .ok v ∧ t.Names words vs :=
  List.forall₂_cons

end HandleTable

namespace Bridge

variable {b b' : Bridge} {v : Value} {w : Word} {words : List Word} {e : BridgeError}

theorem handleOf_eq (b : Bridge) (v : Value) : b.handleOf v =
    ((b.table.insert (.value v)).1, { b with table := (b.table.insert (.value v)).2 }) := rfl

theorem adds_of_handleOf (h : b.handleOf v = (.ok w, b')) :
    b.table.Adds w v b'.table ∧ b' = { b with table := b'.table } := by
  rw [handleOf_eq, Prod.mk.injEq] at h
  obtain ⟨hword, rfl⟩ := h
  exact ⟨HandleTable.adds_of_insert (Prod.ext hword rfl), rfl⟩

theorem eq_of_handleOf_error (h : b.handleOf v = (.error e, b')) : b' = b := by
  rw [handleOf_eq, Prod.mk.injEq] at h
  obtain ⟨hword, rfl⟩ := h
  have htable : (b.table.insert (.value v)).2 = b.table :=
    HandleTable.eq_of_insert_error (Prod.ext hword rfl)
  rw [htable]

/-! ## Messages -/

theorem decodeMessage_eq_ok_iff {receiver : Value} {name : String} {args : List Value} :
    b.decodeMessage words = .ok (receiver, name, args) ↔
      b.table.Names words (receiver :: .symbol name :: args) := by
  cases words with
  | nil => exact iff_of_false nofun nofun
  | cons first words =>
    cases words with
    | nil =>
      refine iff_of_false nofun fun h => ?_
      cases (HandleTable.names_cons.mp h).2
    | cons second rest =>
      rw [HandleTable.names_cons, HandleTable.names_cons, ← HandleTable.values_eq_ok_iff,
        decodeMessage, valueOf, valueOf]
      cases b.table.value first with
      | error e => simp
      | ok u =>
        cases b.table.value second with
        | error e => simp
        | ok u' =>
          cases u' with
          | symbol s => cases b.table.values rest <;> simp
          | _ => simp

/-- The words spell a message, first the receiver, then the name, which is a symbol, then the
arguments, and the receiver answers it with `v`. -/
def Answers (b : Bridge) (words : List Word) (v : Value) : Prop :=
  ∃ receiver name args, b.table.Names words (receiver :: .symbol name :: args) ∧
    receiver.send name args = .ok v

/-- A call whose message is answered comes to the word of the answer. -/
theorem Answers.send (h : b.Answers words v) : b.send words = b.handleOf v := by
  obtain ⟨receiver, name, args, hwords, hsend⟩ := h
  rw [Bridge.send, decodeMessage_eq_ok_iff.mpr hwords]
  dsimp only
  rw [hsend]

/-- Any other call fails and changes nothing. -/
theorem answers_or_error (b : Bridge) (words : List Word) :
    (∃ v, b.Answers words v) ∨ ∃ e, b.send words = (.error e, b) := by
  unfold Bridge.send
  split
  · next e _ => exact .inr ⟨e, rfl⟩
  · next receiver name args hmessage =>
    split
    · next e _ => exact .inr ⟨_, rfl⟩
    · next v hsend => exact .inl ⟨v, receiver, name, args,
        decodeMessage_eq_ok_iff.mp hmessage, hsend⟩

theorem eq_of_send_error (h : b.send words = (.error e, b')) : b' = b := by
  rcases b.answers_or_error words with ⟨v, hv⟩ | ⟨e', hfails⟩
  · rw [hv.send] at h
    exact eq_of_handleOf_error h
  · rw [hfails] at h
    exact (Prod.mk.inj h).2.symm

theorem eq_of_resume_error {frame : List Word} {map : Word} {r : Resumed}
    (h : b.resume frame map = some r) (he : r.result = .error e) : r.bridge = b := by
  cases hdecode : b.decodeDeopt frame map with
  | error e' =>
    rw [resume, hdecode] at h
    cases h
    rfl
  | ok d =>
    rw [resume_of_decodeDeopt hdecode] at h
    split at h
    · cases h
    · cases h
      rfl
    · cases h
      exact eq_of_handleOf_error (Prod.ext he rfl)

/-- While there is room in the table, a call succeeds iff its words spell a message that is
answered. Then it comes to a word for the answer, and all that changes is that this word may be new.
A call that fails leaves the bridge as it was, and so does handing over a frame to the interpreter
when that fails. -/
theorem send_faithful (b : Bridge) :
    (b.table.size < 2 ^ 32 - 1 → ∀ words,
      ((∃ w b', b.send words = (.ok w, b')) ↔ ∃ v, b.Answers words v) ∧
      ∀ w b' v, b.send words = (.ok w, b') → b.Answers words v →
        b.table.Adds w v b'.table ∧ b' = { b with table := b'.table }) ∧
    (∀ words e b', b.send words = (.error e, b') → b' = b) ∧
    ∀ frame map r e, b.resume frame map = some r → r.result = .error e → r.bridge = b := by
  refine ⟨fun hroom words => ⟨⟨?_, ?_⟩, ?_⟩, fun _ _ _ => eq_of_send_error,
    fun _ _ _ _ => eq_of_resume_error⟩
  · rintro ⟨w, b', hsend⟩
    refine (b.answers_or_error words).resolve_right ?_
    rintro ⟨e, hfails⟩
    rw [hfails] at hsend
    cases hsend
  · rintro ⟨v, hv⟩
    obtain ⟨w, b', hhandle, -⟩ := exists_handleOf hroom v
    exact ⟨w, b', hv.send.trans hhandle⟩
  · intro w b' v hsend hv
    rw [hv.send] at hsend
    exact adds_of_handleOf hsend

/-- A bridge with words for two numbers and the name of the difference. -/
def subtracting : Bridge := ((Bridge.new 10 false).handlesOf [.int 7, .symbol "-", .int 5]).2

/-- The difference of the numbers gets the next word. A name is no number, and the word of a name is
not that of a map. -/
theorem send_faithful_subtracting :
    subtracting.table.size < 2 ^ 32 - 1 ∧
      (∃ b', subtracting.send [0x100000001, 0x100000002, 0x100000003] = (.ok 0x100000004, b') ∧
        subtracting.table.Adds 0x100000004 (.int 2) b'.table) ∧
      (∃ b', subtracting.send [0x100000001, 0x100000002, 0x100000002] =
        (.error (.dispatch (.typeMismatch "-" .int .symbol)), b') ∧ b' = subtracting) ∧
      ∃ r, subtracting.resume [0x100000001] 0x100000002 = some r ∧
        r.result = .error (.wrongKind 0x100000002 .deoptMap .value) ∧ r.bridge = subtracting := by
  have hroom : subtracting.table.size < 2 ^ 32 - 1 := by decide +kernel
  have hanswers : subtracting.Answers [0x100000001, 0x100000002, 0x100000003] (.int 2) := by
    refine ⟨.int 7, "-", [.int 5], .cons ?_ (.cons ?_ (.cons ?_ .nil)), ?_⟩ <;> rfl
  obtain ⟨b₁, hcall⟩ : ∃ b', subtracting.send [0x100000001, 0x100000002, 0x100000003] =
      (.ok 0x100000004, b') := ⟨_, rfl⟩
  obtain ⟨b₂, hrefused⟩ : ∃ b', subtracting.send [0x100000001, 0x100000002, 0x100000002] =
      (.error (.dispatch (.typeMismatch "-" .int .symbol)), b') := ⟨_, rfl⟩
  obtain ⟨r, hresumed, hresult⟩ : ∃ r, subtracting.resume [0x100000001] 0x100000002 = some r ∧
      r.result = .error (.wrongKind 0x100000002 .deoptMap .value) := ⟨_, rfl, rfl⟩
  obtain ⟨hcalls, herror, hresume⟩ := send_faithful subtracting
  obtain ⟨hadds, -⟩ := (hcalls hroom _).2 _ _ _ hcall hanswers
  exact ⟨hroom, ⟨b₁, hcall, hadds⟩, ⟨b₂, hrefused, herror _ _ _ hrefused⟩, r, hresumed, hresult,
    hresume _ _ _ _ hresumed hresult⟩

end Bridge

end StackJit
