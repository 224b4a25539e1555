import KsSql.Storage.WalRecovery
import KsSql.Util.Effect

/-!
# The recovery loop on any file

What the loop of `Wal::open` does on a byte string that need not be a log. `readLoop` is the loop with
its reads checked: it panics where a slice reaches outside the buffer, and diverges where its rounds
run out. It does neither, as each read stands behind a comparison with the length and each round moves
the cursor forward (`readLoop_eq`). The loop on a part of the file that ends earlier follows the loop
on the file until it stops, so what it recovers is a prefix (`recover_take`).
-/

namespace KsSql

namespace Wal

variable {K V : Type} [Bincode (WalEntry K V)] {buffer : Bytes}

/-- `buffer[start..stop]`, which panics unless the range lies inside the buffer. -/
def slice (buffer : Bytes) (start stop : Nat) : Except StorageError Bytes :=
  if start ≤ stop ∧ stop ≤ buffer.length then .ok ((buffer.drop start).take (stop - start))
  else .error .panicked

/-- The recovery loop of `Wal::open` with checked reads and a number of rounds, behind the entries
recovered so far. -/
def readLoop (buffer : Bytes) : Nat → Nat → List (WalEntry K V) →
    Except StorageError (List (WalEntry K V))
  | 0, _, _ => .error .diverged
  | rounds + 1, cursor, recovered =>
    if cursor + 4 ≤ buffer.length then do
      let lenBytes ← slice buffer cursor (cursor + 4)
      let len := ofLe lenBytes
      if len = 0 then readLoop buffer rounds ((cursor / 4096 + 1) * 4096) recovered
      else
        let cursor := cursor + 4
        if cursor + len ≤ buffer.length then do
          let encoded ← slice buffer cursor (cursor + len)
          match (Bincode.deserialize encoded : Option (WalEntry K V)) with
          | some entry => readLoop buffer rounds (cursor + len) (recovered ++ [entry])
          | none => readLoop buffer rounds (cursor + len) recovered
        else .ok recovered
    else .ok recovered

theorem slice_eq {start len : Nat} (h : start + len ≤ buffer.length) :
    slice buffer start (start + len) = .ok ((buffer.drop start).take len) := by
  rw [slice, if_pos ⟨Nat.le_add_right _ _, h⟩, Nat.add_sub_cancel_left]

/-- **The loop ends, and reads nothing outside the buffer.** One round for each byte left and one more
are enough. -/
theorem readLoop_eq : ∀ (rounds cursor : Nat) (recovered : List (WalEntry K V)),
    buffer.length < rounds + cursor → 0 < rounds →
      readLoop buffer rounds cursor recovered = .ok (recovered ++ recoverLoop buffer rounds cursor)
  | rounds + 1, cursor, recovered, hrounds, _ => by
    rw [readLoop, recoverLoop]
    by_cases hword : cursor + 4 ≤ buffer.length
    · have hpos : 0 < rounds := by omega
      rw [if_pos hword, if_pos hword, slice_eq hword, Except.ok_bind]
      by_cases hlen : ofLe ((buffer.drop cursor).take 4) = 0
      · -- a jump to the next block goes beyond the cursor
        have hjump : cursor < (cursor / 4096 + 1) * 4096 := by omega
        simp only [hlen, if_true]
        exact readLoop_eq rounds _ recovered (by omega) hpos
      · simp only [hlen, if_false]
        by_cases hentry : cursor + 4 + ofLe ((buffer.drop cursor).take 4) ≤ buffer.length
        · rw [if_pos hentry, if_pos hentry, slice_eq hentry, Except.ok_bind]
          rcases (Bincode.deserialize _ : Option (WalEntry K V)) with - | entry
          · exact readLoop_eq rounds _ recovered (by omega) hpos
          · show readLoop buffer rounds _ (recovered ++ [entry]) = _
            rw [readLoop_eq rounds _ _ (by omega) hpos, List.append_assoc]
            rfl
        · rw [if_neg hentry, if_neg hentry, List.append_nil]
    · rw [if_neg hword, if_neg hword, List.append_nil]

/-- A part of the buffer that lies before a cut is the same behind the cut. -/
theorem take_drop_take {n start len : Nat} (h : start + len ≤ (buffer.take n).length) :
    ((buffer.take n).drop start).take len = (buffer.drop start).take len := by
  rw [List.length_take] at h
  rw [List.drop_take, List.take_take, Nat.min_eq_left (by omega)]

/-- **A cut file yields a prefix.** The loop on the part before the cut follows the loop on the whole
until it stops. -/
theorem recoverLoop_take (n : Nat) : ∀ (fuel' fuel cursor : Nat), buffer.length < fuel + cursor →
    recoverLoop (buffer.take n) fuel' cursor <+:
      (recoverLoop buffer fuel cursor : List (WalEntry K V))
  | 0, _, _, _ => List.nil_prefix
  | fuel' + 1, fuel, cursor, hfuel => by
    have hle : (buffer.take n).length ≤ buffer.length := List.length_take_le' _ _
    rw [recoverLoop]
    by_cases hword : cursor + 4 ≤ (buffer.take n).length
    · obtain ⟨fuel, rfl⟩ : ∃ k, fuel = k + 1 := ⟨fuel - 1, by omega⟩
      rw [if_pos hword, recoverLoop, if_pos (hword.trans hle), take_drop_take hword]
      by_cases hlen : ofLe ((buffer.drop cursor).take 4) = 0
      · have hjump : cursor < (cursor / 4096 + 1) * 4096 := by omega
        simp only [hlen, if_true]
        exact recoverLoop_take n fuel' fuel _ (by omega)
      · simp only [hlen, if_false]
        by_cases hentry : cursor + 4 + ofLe ((buffer.drop cursor).take 4) ≤ (buffer.take n).length
        · rw [if_pos hentry, if_pos (hentry.trans hle), take_drop_take hentry]
          rcases (Bincode.deserialize _ : Option (WalEntry K V)) with - | entry
          · exact recoverLoop_take n fuel' fuel _ (by omega)
          · exact List.prefix_cons_inj entry |>.2 (recoverLoop_take n fuel' fuel _ (by omega))
        · rw [if_neg hentry]
          exact List.nil_prefix
    · rw [if_neg hword]
      exact List.nil_prefix

/-- More rounds than the file has bytes recover nothing more. -/
theorem recoverLoop_eq_recover {rounds : Nat} (h : buffer.length < rounds) :
    recoverLoop buffer rounds 0 = (recover buffer : List (WalEntry K V)) := by
  have hle : recoverLoop (buffer.take buffer.length) rounds 0 <+:
      (recover buffer : List (WalEntry K V)) :=
    recoverLoop_take buffer.length rounds (buffer.length + 1) 0 (by omega)
  have hge : recover (buffer.take buffer.length) <+:
      (recoverLoop buffer rounds 0 : List (WalEntry K V)) :=
    recoverLoop_take buffer.length _ rounds 0 (by omega)
  rw [List.take_length] at hle hge
  exact hle.eq_of_length_le hge.length_le

/-- **Recovery ends on every file, and a file cut short yields a prefix of the entries.** -/
theorem recover_take (buffer : Bytes) (n : Nat) :
    (∀ rounds, buffer.length < rounds →
      readLoop buffer rounds 0 [] = .ok (recover buffer : List (WalEntry K V))) ∧
      recover (buffer.take n) <+: (recover buffer : List (WalEntry K V)) := by
  refine ⟨fun rounds hrounds ↦ ?_, recoverLoop_take n _ _ 0 (by omega)⟩
  rw [readLoop_eq rounds 0 [] (by omega) (by omega), List.nil_append,
    recoverLoop_eq_recover hrounds]

end Wal

end KsSql
