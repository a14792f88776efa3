/-
Texts and indexes in byte order. Texts are ordered as their bytes in UTF-8 are (`ofText_lt_ofText`):
the encodings of two different characters differ at a byte that both have, and there they are ordered
like the characters (`encode_append_lt`). Sorting puts different texts in strictly increasing order
(`sorted_sort`). Entering a key keeps the keys of an index strictly increasing (`IsOrdered.insert`)
and changes what stands under that key alone (`get?_insert`).
-/
import LocaleSync.Bytes
import LocaleSync.Text.Index
import Mathlib.Algebra.Group.Nat.Defs
import Mathlib.Data.List.Basic

namespace LocaleSync

/-! ## Texts as bytes -/

namespace Bytes

/-- The bytes from a position on, behind those that were collected. -/
theorem toList_loop (bytes : ByteArray) {n i : Nat} (h : bytes.size = i + n) (done : Bytes) :
    ByteArray.toList.loop bytes i done = done.reverse ++ bytes.data.toList.drop i := by
  have hlen : bytes.data.toList.length = i + n := h
  induction n generalizing i done with
  | zero =>
    unfold ByteArray.toList.loop
    rw [if_neg (by omega), List.drop_of_length_le (by omega), List.append_nil]
  | succ n ih =>
    have hi : i < bytes.data.toList.length := by omega
    have hget : bytes.get! i = bytes.data.toList[i] := by
      rw [Array.getElem_toList]
      exact getElem!_pos bytes.data i hi
    unfold ByteArray.toList.loop
    rw [if_pos (by omega), ih (by omega) _ (by omega), List.reverse_cons, List.append_assoc,
      hget, List.singleton_append, List.getElem_cons_drop]

theorem ofText_eq_flatMap (t : Text) : ofText t = t.flatMap String.utf8EncodeChar := by
  have h : (String.ofList t).toUTF8 = (t.flatMap String.utf8EncodeChar).toByteArray :=
    String.toByteArray_ofList
  unfold ofText
  rw [h, ByteArray.toList, toList_loop _ (Nat.zero_add _).symm, List.toList_data_toByteArray]
  rfl

theorem cons_ofNat_lt_cons {m n : Nat} (hn : n < 256) {s t : Bytes}
    (h : m < n ∨ m = n ∧ s < t) : UInt8.ofNat m :: s < UInt8.ofNat n :: t := by
  rw [List.cons_lt_cons_iff, UInt8.lt_iff_toNat_lt, ← UInt8.toNat_inj, UInt8.toNat_ofNat',
    UInt8.toNat_ofNat']
  rcases h with h | ⟨rfl, h⟩
  · left; omega
  · exact .inr ⟨rfl, h⟩

/-- The last `k` digits of a number to the base 64, each in a byte of its own. -/
def digits : (k : Nat) → Nat → Bytes
  | 0, _ => []
  | k + 1, n => UInt8.ofNat (n / 64 ^ k % 64 + 128) :: digits k n

/-- Of two numbers that agree in the digits before, the smaller one has the smaller digits. -/
theorem digits_append_lt {m n : Nat} (h : m < n) (s t : Bytes) :
    ∀ k, m / 64 ^ k = n / 64 ^ k → digits k m ++ s < digits k n ++ t
  | 0, hk => by simp at hk; omega
  | k + 1, hk => by
    rw [Nat.pow_succ, ← Nat.div_div_eq_div_mul, ← Nat.div_div_eq_div_mul] at hk
    have hle : m / 64 ^ k ≤ n / 64 ^ k := Nat.div_le_div_right (Nat.le_of_lt h)
    apply cons_ofNat_lt_cons (by omega)
    by_cases he : m / 64 ^ k = n / 64 ^ k
    · exact .inr ⟨by rw [he], digits_append_lt h s t k he⟩
    · left; omega

/-- Whatever follows them, the bytes of the smaller of two characters come first. -/
theorem encode_append_lt {c d : Char} (h : c < d) (s t : Bytes) :
    String.utf8EncodeChar c ++ s < String.utf8EncodeChar d ++ t := by
  have hcd : c.val.toNat < d.val.toNat := h
  have hd : d.val.toNat < 0x110000 := by
    have := d.valid
    simp only [UInt32.isValidChar, Nat.isValidChar] at this
    omega
  simp only [String.utf8EncodeChar]
  generalize c.val.toNat = m at *
  generalize d.val.toNat = n at *
  have hdigits (k : Nat) := digits_append_lt hcd s t k
  -- The first bytes decide, unless they are the same: then as many digits follow on both sides.
  split_ifs <;> apply cons_ofNat_lt_cons (by omega)
  all_goals try exact .inl (by omega)
  · by_cases he : m / 64 = n / 64
    · exact .inr ⟨by rw [he], by simpa [digits] using hdigits 1 (by simpa using he)⟩
    · left; omega
  · by_cases he : m / 4096 = n / 4096
    · exact .inr ⟨by rw [he], by simpa [digits] using hdigits 2 (by simpa using he)⟩
    · left; omega
  · by_cases he : m / 262144 = n / 262144
    · exact .inr ⟨by rw [he], by simpa [digits] using hdigits 3 (by simpa using he)⟩
    · left; omega

/-- **Texts are ordered as their bytes are.** -/
theorem ofText_lt_ofText {a b : Text} (h : a < b) : ofText a < ofText b := by
  rw [ofText_eq_flatMap, ofText_eq_flatMap]
  induction h with
  | @nil d b =>
    obtain ⟨x, xs, hx⟩ := List.exists_cons_of_ne_nil (String.utf8EncodeChar_ne_nil (c := d))
    rw [List.flatMap_cons, hx]
    exact List.nil_lt_cons ..
  | @cons c a b _ ih =>
    rw [List.flatMap_cons, List.flatMap_cons]
    exact List.append_left_lt ih
  | rel h => exact encode_append_lt h _ _

end Bytes

/-! ## Sorting -/

namespace Text

@[simp] theorem mem_sort {t : Text} {ts : List Text} : t ∈ sort ts ↔ t ∈ ts :=
  List.mem_mergeSort

/-- **Different texts are sorted in strictly increasing order.** -/
theorem sorted_sort {ts : List Text} (h : ts.Nodup) : (sort ts).Pairwise (· < ·) := by
  have htrans : ∀ a b c : Text, (!decide (b < a)) = true → (!decide (c < b)) = true →
      (!decide (c < a)) = true := by
    simp only [Bool.not_eq_true', decide_eq_false_iff_not]
    exact fun a b c hab hbc => List.le_trans hab hbc
  have htotal : ∀ a b : Text, (!decide (b < a) || !decide (a < b)) = true := by
    intro a b
    by_cases h : b < a
    · simp [List.lt_asymm h]
    · simp [h]
  have hle := List.pairwise_mergeSort htrans htotal ts
  have hne : (sort ts).Nodup := (List.mergeSort_perm _ _).nodup_iff.2 h
  refine (hle.and hne).imp ?_
  intro a b hab
  obtain ⟨hab, hne⟩ := hab
  simp only [Bool.not_eq_true', decide_eq_false_iff_not] at hab
  by_contra hn
  exact hne (List.le_antisymm hab hn)

end Text

/-! ## Entering keys -/

namespace Text.Index

variable {α : Type}

/-- The keys increase strictly. -/
def IsOrdered (ix : Index α) : Prop :=
  ix.keys.Pairwise (· < ·)

@[simp] theorem get?_nil (x : Text) : get? ([] : Index α) x = none := rfl

theorem get?_cons (a x : Text) (y : α) (ix : Index α) :
    get? ((a, y) :: ix) x = if a = x then some y else get? ix x := by
  by_cases h : a = x <;> simp [get?, h]

/-- **Entering a key changes what stands under it and nothing else.** -/
theorem get?_insert (ix : Index α) (k x : Text) (v : α) :
    (insert k v ix).get? x = if k = x then some v else ix.get? x := by
  induction ix with
  | nil => rw [insert, get?_cons]
  | cons entry rest ih =>
    obtain ⟨a, y⟩ := entry
    unfold insert
    split
    · rw [get?_cons]
    · split
      next he => rw [get?_cons, get?_cons, ← he]; split <;> rfl
      next hne =>
        rw [get?_cons, get?_cons, ih]
        by_cases ha : a = x
        · rw [if_pos ha, if_pos ha, if_neg fun hk => hne (hk.trans ha.symm)]
        · rw [if_neg ha, if_neg ha]

theorem get?_eq_none_iff {ix : Index α} {x : Text} : ix.get? x = none ↔ x ∉ ix.keys := by
  induction ix with
  | nil => simp [keys]
  | cons entry rest ih =>
    obtain ⟨a, y⟩ := entry
    rw [get?_cons]
    by_cases ha : a = x
    · simp [keys, ha]
    · simpa [keys, ha, Ne.symm ha] using ih

theorem mem_keys_iff {ix : Index α} {x : Text} : x ∈ ix.keys ↔ ∃ v, ix.get? x = some v := by
  rw [← Option.isSome_iff_exists, ← Option.ne_none_iff_isSome, ne_eq, get?_eq_none_iff,
    Classical.not_not]

theorem mem_keys_insert {ix : Index α} {k x : Text} {v : α} :
    x ∈ (insert k v ix).keys ↔ x = k ∨ x ∈ ix.keys := by
  rw [mem_keys_iff, mem_keys_iff, get?_insert]
  by_cases hx : k = x
  · simp [hx]
  · simp [hx, Ne.symm hx]

theorem IsOrdered.insert {ix : Index α} (h : IsOrdered ix) (k : Text) (v : α) :
    IsOrdered (insert k v ix) := by
  induction ix with
  | nil => simp [IsOrdered, Index.insert, keys]
  | cons entry rest ih =>
    obtain ⟨a, y⟩ := entry
    obtain ⟨ha, hrest⟩ := List.pairwise_cons.1 h
    unfold Index.insert
    split
    next hka =>
      refine List.pairwise_cons.2 ⟨?_, h⟩
      intro x hx
      rcases List.mem_cons.1 hx with rfl | hx
      · exact hka
      · exact List.lt_trans hka (ha x hx)
    next hka =>
      split
      next he =>
        subst he
        exact h
      next hne =>
        have hak : a < k := by
          rcases List.le_iff_lt_or_eq.1 (List.not_lt.1 hka) with h | h
          · exact h
          · exact absurd h.symm hne
        refine List.pairwise_cons.2 ⟨?_, ih hrest⟩
        intro x hx
        rcases mem_keys_insert.1 hx with rfl | hx
        · exact hak
        · exact ha x hx

end Text.Index

end LocaleSync
