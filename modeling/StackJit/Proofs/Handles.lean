import Mathlib.Data.List.Induction
import Mathlib.Data.Nat.Bitwise
import StackJit.Native.Handle

/-!
# What handles name

A word tells its generation and its entry apart: seen as numbers, the stamp of a table and the
number of an entry are the two digits of the word (`HandleTable.toNat_wordAt`). So `HandleTable.get`
gives the entry whose word it is asked for, and nothing for other words
(`HandleTable.get_eq_ok_iff`).

`HandleTable.History` adds to a table the words that have been given out, before the last reset and
after it. What the table knows is what was given out since (`History.Sound`), as long as no
generation has come round again.

Main statement: `HandleTable.run_exact`.
-/

namespace StackJit

namespace HandleTable

variable {t t' : HandleTable} {r r' : Referent} {w w' : Word} {i : Nat}

/-! ## Words and their halves -/

theorem toNat_slotMask : slotMask.toNat = 2 ^ 32 - 1 := rfl

/-- The lower half of a word. -/
theorem toNat_and_slotMask (w : Word) : (w &&& slotMask).toNat = w.toNat % 2 ^ 32 := by
  rw [UInt64.toNat_and, toNat_slotMask, Nat.and_two_pow_sub_one_eq_mod]

/-- The upper half of a word. -/
theorem toNat_shiftRight_slotBits (w : Word) : (w >>> slotBits).toNat = w.toNat / 2 ^ 32 := by
  rw [UInt64.toNat_shiftRight, Nat.shiftRight_eq_div_pow]
  rfl

theorem toNat_stamp (t : HandleTable) : t.stamp.toNat = t.generation.toNat % 2 ^ 32 :=
  toNat_and_slotMask t.generation

theorem stamp_lt (t : HandleTable) : t.stamp.toNat < 2 ^ 32 := by
  rw [toNat_stamp]
  exact Nat.mod_lt _ (by decide)

theorem number_lt (hi : i < t.size) : i + 1 < 2 ^ 32 := by
  have hfits := t.fits
  rw [toNat_slotMask] at hfits
  exact Nat.lt_of_le_of_lt (Nat.le_trans hi hfits) (by decide)

theorem toNat_wordAt (t : HandleTable) (hi : i + 1 < 2 ^ 32) :
    (t.wordAt i).toNat = t.stamp.toNat * 2 ^ 32 + (i + 1) := by
  have hstamp := t.stamp_lt
  have hupper : (t.stamp <<< slotBits).toNat = t.stamp.toNat * 2 ^ 32 := by
    rw [UInt64.toNat_shiftLeft, Nat.shiftLeft_eq]
    change t.stamp.toNat * 2 ^ 32 % 2 ^ 64 = _
    exact Nat.mod_eq_of_lt (by omega)
  have hlower : (UInt64.ofNat (i + 1)).toNat = i + 1 := by
    rw [UInt64.toNat_ofNat']
    exact Nat.mod_eq_of_lt (by omega)
  rw [wordAt, UInt64.toNat_or, hupper, hlower, Nat.mul_comm, Nat.two_pow_add_eq_or_of_lt hi]

/-! ## Lookups -/

theorem lt_size (h : t.entries[i]? = some r) : i < t.size := (Array.getElem?_eq_some_iff.mp h).1

/-- A word gives the entry whose word it is. -/
theorem get_eq_ok_iff : t.get w = .ok r ↔ ∃ i, t.entries[i]? = some r ∧ w = t.wordAt i := by
  constructor
  · intro h
    dsimp only [get] at h
    split at h
    · cases h
    · next hword =>
      rw [not_or, not_not, ← UInt64.toNat_inj, ← UInt64.toNat_inj, toNat_and_slotMask,
        toNat_shiftRight_slotBits] at hword
      obtain ⟨hslot, hstamp⟩ := hword
      change ¬ w.toNat % 2 ^ 32 = 0 at hslot
      split at h
      · next r' hentry =>
        obtain rfl := Except.ok.inj h
        rw [toNat_and_slotMask] at hentry
        refine ⟨_, hentry, UInt64.toNat_inj.mp ?_⟩
        rw [t.toNat_wordAt (number_lt (lt_size hentry)), ← hstamp]
        omega
      · cases h
  · rintro ⟨i, hentry, rfl⟩
    have hword := t.toNat_wordAt (number_lt (lt_size hentry))
    have hnumber := number_lt (lt_size hentry)
    have hslot : (t.wordAt i &&& slotMask).toNat = i + 1 := by
      rw [toNat_and_slotMask]
      omega
    have hstamp : t.wordAt i >>> slotBits = t.stamp := by
      rw [← UInt64.toNat_inj, toNat_shiftRight_slotBits]
      omega
    have hne : t.wordAt i &&& slotMask ≠ 0 := by
      intro hzero
      rw [hzero] at hslot
      cases hslot
    rw [get, if_neg (by simp [hne, hstamp]), hslot, Nat.add_sub_cancel, hentry]

theorem get_error {e : BridgeError} (h : t.get w = .error e) : e = .unknownHandle w := by
  dsimp only [get] at h
  split at h
  · exact (Except.error.inj h).symm
  · split at h
    · cases h
    · exact (Except.error.inj h).symm

theorem ne_zero_of_get (h : t.get w = .ok r) : w ≠ 0 := by
  obtain ⟨i, hentry, rfl⟩ := get_eq_ok_iff.mp h
  intro hzero
  have hword := t.toNat_wordAt (number_lt (lt_size hentry))
  rw [hzero] at hword
  change 0 = _ at hword
  omega

/-- The words that name something are of the table's generation. -/
theorem upper_of_get (h : t.get w = .ok r) : w.toNat / 2 ^ 32 = t.stamp.toNat := by
  obtain ⟨i, hentry, rfl⟩ := get_eq_ok_iff.mp h
  have hnumber := number_lt (lt_size hentry)
  rw [t.toNat_wordAt hnumber]
  omega

/-- A key has one word. -/
theorem get_injective (h : t.get w = .ok r) (h' : t.get w' = .ok r') (hkey : r.key = r'.key) :
    w = w' := by
  obtain ⟨i, hentry, rfl⟩ := get_eq_ok_iff.mp h
  obtain ⟨j, hentry', rfl⟩ := get_eq_ok_iff.mp h'
  have hi : t.slots.lookup r.key = some i := (t.indexed _ _).mpr (by rw [hentry, Option.map_some])
  have hj : t.slots.lookup r.key = some j :=
    (t.indexed _ _).mpr (by rw [hentry', Option.map_some, hkey])
  rw [Option.some.inj (hi.symm.trans hj)]

/-- Nothing has a word in an empty table. -/
theorem get_of_empty (h : t.entries = #[]) : t.get w ≠ .ok r := by
  intro hget
  obtain ⟨i, hentry, -⟩ := get_eq_ok_iff.mp hget
  simp [h] at hentry

/-! ## Requests -/

/-- A new entry gets a word, and the other words name what they did. -/
theorem get_push (hnew : t.slots.lookup r.key = none) (hroom : t.size + 1 ≤ slotMask.toNat) :
    (t.push r hnew hroom).get w = .ok r' ↔
      t.get w = .ok r' ∨ w = t.wordAt t.size ∧ r' = r := by
  rw [get_eq_ok_iff, get_eq_ok_iff]
  change (∃ i, (t.entries.push r)[i]? = some r' ∧ w = t.wordAt i) ↔ _
  simp only [Array.getElem?_push]
  constructor
  · rintro ⟨i, hentry, rfl⟩
    split at hentry
    · next hlast => exact .inr ⟨by rw [hlast, size], (Option.some.inj hentry).symm⟩
    · exact .inl ⟨i, hentry, rfl⟩
  · rintro (⟨i, hentry, rfl⟩ | ⟨rfl, rfl⟩)
    · exact ⟨i, (if_neg (Nat.ne_of_lt (lt_size hentry))).trans hentry, rfl⟩
    · exact ⟨t.size, if_pos rfl, rfl⟩

/-- What comes of asking for a word: the word of an entry that is there, none for want of room, or
that of a new entry. -/
theorem insert_cases (t : HandleTable) (r : Referent) :
    (∃ w r', t.get w = .ok r' ∧ r'.key = r.key ∧ t.insert r = (.ok w, t)) ∨
      (t.size = slotMask.toNat ∧ t.insert r = (.error .tableFull, t)) ∨
      ∃ hnew hroom, t.insert r = (.ok (t.wordAt t.size), t.push r hnew hroom) := by
  unfold insert
  split
  · next i hslot =>
    obtain ⟨r', hentry, hkey⟩ := Option.map_eq_some_iff.mp ((t.indexed r.key i).mp hslot)
    exact .inl ⟨_, r', get_eq_ok_iff.mpr ⟨i, hentry, rfl⟩, hkey, rfl⟩
  · next hslot =>
    split
    · next hfull => exact .inr (.inl ⟨Nat.le_antisymm t.fits (Nat.le_of_lt_succ hfull), rfl⟩)
    · next hfull => exact .inr (.inr ⟨hslot, Nat.le_of_not_lt hfull, rfl⟩)

/-- While there is room, whatever is asked for gets a word. -/
theorem exists_insert (hroom : t.size < slotMask.toNat) (r : Referent) :
    ∃ w t', t.insert r = (.ok w, t') := by
  obtain ⟨w, r', -, -, hinsert⟩ | ⟨hfull, -⟩ | ⟨_, _, hinsert⟩ := t.insert_cases r
  · exact ⟨w, t, hinsert⟩
  · exact absurd hfull (Nat.ne_of_lt hroom)
  · exact ⟨_, _, hinsert⟩

/-- The word that was asked for names what it was asked for. -/
theorem get_of_insert (h : t.insert r = (.ok w, t')) :
    ∃ r', t'.get w = .ok r' ∧ r'.key = r.key := by
  obtain ⟨w', r', hget, hkey, hinsert⟩ | ⟨-, hinsert⟩ | ⟨hnew, hroom, hinsert⟩ := t.insert_cases r
  · rw [hinsert, Prod.mk.injEq, Except.ok.injEq] at h
    obtain ⟨rfl, rfl⟩ := h
    exact ⟨r', hget, hkey⟩
  · rw [hinsert] at h
    cases h
  · rw [hinsert, Prod.mk.injEq, Except.ok.injEq] at h
    obtain ⟨rfl, rfl⟩ := h
    exact ⟨r, (get_push hnew hroom).mpr (.inr ⟨rfl, rfl⟩), rfl⟩

theorem value_of_insert {v : Value} (h : t.insert (.value v) = (.ok w, t')) :
    t'.value w = .ok v := by
  obtain ⟨r, hget, hkey⟩ := get_of_insert h
  rw [value, hget]
  cases r with
  | value v' =>
    cases hkey
    rfl
  | deoptMap serial map => cases hkey

/-- No generation before the last one comes round. -/
theorem toNat_nextGeneration (h : t.generation.toNat + 1 < 2 ^ 32) :
    t.nextGeneration.toNat = t.generation.toNat + 1 := by
  have hnext : (t.generation + 1).toNat = t.generation.toNat + 1 := by
    rw [UInt64.toNat_add]
    exact Nat.mod_eq_of_lt (Nat.lt_trans h (by decide))
  have hne : t.generation + 1 &&& slotMask ≠ 0 := by
    intro hzero
    have hlow := toNat_and_slotMask (t.generation + 1)
    rw [hzero, hnext, Nat.mod_eq_of_lt h] at hlow
    cases hlow
  rw [nextGeneration, if_neg hne, hnext]

end HandleTable

/-! ## Histories -/

/-- The referent of a key, when `maps` says which deopt map has which serial number. -/
def Referent.Key.referent (maps : Nat → DeoptMap) : Referent.Key → Referent
  | value v => .value v
  | deoptMap serial => .deoptMap serial (maps serial)

@[simp]
theorem Referent.key_referent (maps : Nat → DeoptMap) (key : Referent.Key) :
    (key.referent maps).key = key := by
  cases key <;> rfl

theorem Referent.referent_inj {maps : Nat → DeoptMap} {key key' : Referent.Key} :
    key.referent maps = key'.referent maps ↔ key = key' := by
  refine ⟨fun h => ?_, congrArg _⟩
  rw [← key_referent maps key, h, key_referent]

/-- What changes a table. Lookups do not. -/
inductive HandleTable.Operation where
  | request (key : Referent.Key)
  | reset
deriving DecidableEq, Repr

/-- A table, and the words that it has given out. -/
structure HandleTable.History where
  table : HandleTable
  /-- What was asked for since the last reset, with its word. -/
  current : List (Referent.Key × Word)
  /-- The words given out before that. -/
  earlier : List Word

namespace HandleTable.History

def start : History := ⟨.empty, [], []⟩

def step (maps : Nat → DeoptMap) (h : History) : Operation → History
  | .request key =>
    match h.table.insert (key.referent maps) with
    | (.ok w, table) => { h with table, current := h.current ++ [(key, w)] }
    | (.error _, table) => { h with table }
  | .reset => ⟨h.table.reset, [], h.earlier ++ h.current.map (·.2)⟩

def run (maps : Nat → DeoptMap) (ops : List Operation) : History :=
  ops.foldl (step maps) start

theorem run_concat (maps : Nat → DeoptMap) (ops : List Operation) (op : Operation) :
    run maps (ops ++ [op]) = (run maps ops).step maps op :=
  List.foldl_append

variable {maps : Nat → DeoptMap} {h : History} {resets : Nat} {r : Referent} {w : Word}

/-- The words that name something are those given out since the last reset, and earlier words are
of earlier generations. -/
structure Sound (maps : Nat → DeoptMap) (h : History) (resets : Nat) : Prop where
  referent : ∀ {w r}, h.table.get w = .ok r → r = r.key.referent maps
  current : ∀ {key w}, (key, w) ∈ h.current ↔ h.table.get w = .ok (key.referent maps)
  generation : h.table.generation.toNat = resets + 1
  earlier : ∀ w ∈ h.earlier, w ≠ 0 ∧ w.toNat / 2 ^ 32 ≤ resets

theorem sound_start (maps : Nat → DeoptMap) : start.Sound maps 0 where
  referent hget := absurd hget (get_of_empty rfl)
  current := iff_of_false List.not_mem_nil (get_of_empty rfl)
  generation := rfl
  earlier _ hw := absurd hw List.not_mem_nil

theorem Sound.request (hs : h.Sound maps resets) (key : Referent.Key) :
    (h.step maps (.request key)).Sound maps resets := by
  dsimp only [step]
  obtain ⟨w, r, hget, hkey, hinsert⟩ | ⟨-, hinsert⟩ | ⟨hnew, hroom, hinsert⟩ :=
    h.table.insert_cases (key.referent maps)
  · rw [hinsert]
    rw [Referent.key_referent] at hkey
    have hold : h.table.get w = .ok (key.referent maps) := by
      rw [hget, hs.referent hget, hkey]
    refine ⟨hs.referent, fun {key' w'} => ?_, hs.generation, hs.earlier⟩
    rw [List.mem_append, List.mem_singleton, hs.current]
    refine ⟨fun hcase => hcase.elim id fun heq => ?_, .inl⟩
    obtain ⟨rfl, rfl⟩ := Prod.mk.inj heq
    exact hold
  · rw [hinsert]
    exact hs
  · rw [hinsert]
    refine ⟨fun {w r} hget => ?_, fun {key' w} => ?_, hs.generation, hs.earlier⟩
    · obtain hold | ⟨-, rfl⟩ := (get_push hnew hroom).mp hget
      · exact hs.referent hold
      · rw [Referent.key_referent]
    · rw [List.mem_append, List.mem_singleton, hs.current, get_push hnew hroom,
        Prod.mk.injEq, and_comm (a := key' = key), Referent.referent_inj]

theorem Sound.reset (hs : h.Sound maps resets) (hlt : resets + 2 < 2 ^ 32) :
    (h.step maps .reset).Sound maps (resets + 1) where
  referent hget := absurd hget (get_of_empty rfl)
  current := iff_of_false List.not_mem_nil (get_of_empty rfl)
  generation := by
    have hnext := toNat_nextGeneration (t := h.table) (by rw [hs.generation]; exact hlt)
    rw [hs.generation] at hnext
    exact hnext
  earlier w hw := by
    obtain hearlier | hcurrent := List.mem_append.mp hw
    · obtain ⟨hne, hle⟩ := hs.earlier w hearlier
      exact ⟨hne, Nat.le_succ_of_le hle⟩
    · obtain ⟨⟨key, w⟩, hmem, rfl⟩ := List.mem_map.mp hcurrent
      have hget := hs.current.mp hmem
      refine ⟨ne_zero_of_get hget, ?_⟩
      rw [upper_of_get hget, toNat_stamp, hs.generation]
      exact Nat.mod_le _ _

/-- What holds of a whole history, while no generation has come round. -/
theorem sound_run (maps : Nat → DeoptMap) (ops : List Operation)
    (hresets : ops.count .reset < 2 ^ 32 - 1) : (run maps ops).Sound maps (ops.count .reset) := by
  induction ops using List.reverseRecOn with
  | nil => exact sound_start maps
  | append_singleton ops op ih =>
    rw [run_concat]
    rw [List.count_append] at hresets ⊢
    have hs := ih (Nat.lt_of_le_of_lt (Nat.le_add_right _ _) hresets)
    cases op with
    | request key => exact hs.request key
    | reset =>
      rw [List.count_singleton_self] at hresets ⊢
      exact hs.reset (by omega)

/-- A word of an earlier generation names nothing. -/
theorem Sound.get_earlier (hs : h.Sound maps resets) (hlt : resets + 1 < 2 ^ 32)
    (hw : w ∈ h.earlier) : h.table.get w ≠ .ok r := by
  intro hget
  have hle := (hs.earlier w hw).2
  rw [upper_of_get hget, toNat_stamp, hs.generation, Nat.mod_eq_of_lt hlt] at hle
  exact absurd hle (Nat.not_succ_le_self _)

/-- Words name what they were given out for, and nothing else names anything. -/
structure Exact (maps : Nat → DeoptMap) (h : History) : Prop where
  ne_zero : ∀ w ∈ h.earlier ++ h.current.map (·.2), w ≠ 0
  word_eq_iff : ∀ {key key' w w'}, (key, w) ∈ h.current → (key', w') ∈ h.current →
    (w = w' ↔ key = key')
  value : ∀ {v w}, (.value v, w) ∈ h.current →
    h.table.get w = .ok (.value v) ∧ h.table.value w = .ok v ∧
      h.table.deoptMap w = .error (.wrongKind w .deoptMap .value)
  deoptMap : ∀ {serial w}, (.deoptMap serial, w) ∈ h.current →
    h.table.get w = .ok (.deoptMap serial (maps serial)) ∧
      h.table.value w = .error (.wrongKind w .value .deoptMap) ∧
      h.table.deoptMap w = .ok (serial, maps serial)
  unknown : ∀ {w}, (∀ key, (key, w) ∉ h.current) →
    h.table.get w = .error (.unknownHandle w) ∧ h.table.value w = .error (.unknownHandle w) ∧
      h.table.deoptMap w = .error (.unknownHandle w)
  earlier : ∀ w ∈ h.earlier, ∀ key, (key, w) ∉ h.current
  served : h.table.size < 2 ^ 32 - 1 → ∀ key, ∃ w,
    (h.step maps (.request key)).current = h.current ++ [(key, w)]

theorem Sound.word_eq_iff (hs : h.Sound maps resets) {key key' : Referent.Key} {w w' : Word}
    (hw : (key, w) ∈ h.current) (hw' : (key', w') ∈ h.current) : w = w' ↔ key = key' := by
  rw [hs.current] at hw hw'
  constructor
  · rintro rfl
    exact Referent.referent_inj.mp (Except.ok.inj (hw.symm.trans hw'))
  · rintro rfl
    exact get_injective hw hw' rfl

theorem Sound.unknown (hs : h.Sound maps resets) (hw : ∀ key, (key, w) ∉ h.current) :
    h.table.get w = .error (.unknownHandle w) := by
  cases hget : h.table.get w with
  | error e => rw [get_error hget]
  | ok r =>
    refine absurd (hs.current.mpr ?_) (hw r.key)
    rw [hget, ← hs.referent hget]

theorem current_request (hroom : h.table.size < 2 ^ 32 - 1) (key : Referent.Key) :
    ∃ w, (h.step maps (.request key)).current = h.current ++ [(key, w)] := by
  obtain ⟨w, table, hinsert⟩ := exists_insert hroom (key.referent maps)
  refine ⟨w, ?_⟩
  dsimp only [step]
  rw [hinsert]

theorem Sound.exact (hs : h.Sound maps resets) (hlt : resets + 1 < 2 ^ 32) : h.Exact maps where
  ne_zero w hw := by
    obtain hearlier | hcurrent := List.mem_append.mp hw
    · exact (hs.earlier w hearlier).1
    · obtain ⟨⟨key, w⟩, hmem, rfl⟩ := List.mem_map.mp hcurrent
      exact ne_zero_of_get (hs.current.mp hmem)
  word_eq_iff := hs.word_eq_iff
  value hw := by
    have hget := hs.current.mp hw
    refine ⟨hget, ?_, ?_⟩
    · rw [value, hget]
      rfl
    · rw [deoptMap, hget]
      rfl
  deoptMap hw := by
    have hget := hs.current.mp hw
    refine ⟨hget, ?_, ?_⟩
    · rw [value, hget]
      rfl
    · rw [deoptMap, hget]
      rfl
  unknown hw := by
    have hget := hs.unknown hw
    refine ⟨hget, ?_, ?_⟩
    · rw [value, hget]
    · rw [deoptMap, hget]
  earlier _ hw _ hmem := hs.get_earlier hlt hw (hs.current.mp hmem)
  served := current_request

end HandleTable.History

/-- Whatever is asked for and however often the table is emptied, before a generation comes round:
no word is zero, those asked for since the last reset name each their own referent, and every other
word is unknown. -/
theorem HandleTable.run_exact (maps : Nat → DeoptMap) (ops : List HandleTable.Operation)
    (hresets : ops.count .reset < 2 ^ 32 - 1) : (History.run maps ops).Exact maps :=
  (History.sound_run maps ops hresets).exact (Nat.add_lt_of_lt_sub hresets)

/-- Asks for a value and a deopt map, resets, and asks for them the other way round. -/
def HandleTable.twice : List HandleTable.Operation :=
  [.request (.value .nil), .request (.deoptMap 7), .reset, .request (.deoptMap 7),
    .request (.value .nil)]

theorem HandleTable.run_exact_twice :
    twice.count .reset < 2 ^ 32 - 1 ∧
      (History.run (fun _ => ⟨#[], 0, [], []⟩) twice).current =
        [(.deoptMap 7, 0x200000001), (.value .nil, 0x200000002)] ∧
      (History.run (fun _ => ⟨#[], 0, [], []⟩) twice).earlier = [0x100000001, 0x100000002] ∧
      (History.run (fun _ => ⟨#[], 0, [], []⟩) twice).Exact fun _ => ⟨#[], 0, [], []⟩ :=
  ⟨by decide, by decide +kernel, by decide +kernel, run_exact _ _ (by decide)⟩

end StackJit
