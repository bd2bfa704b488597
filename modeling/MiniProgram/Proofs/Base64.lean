import MiniProgram.Base64

/-!
# Base64 read back

`decode` reads the padded form of bytes and refuses everything that `encode` does not write. What is
encoded is decoded to the same bytes, whether the last group is full or not (`decode_encode`).
-/

namespace MiniProgram.Base64

/-- The bytes that text denotes, in groups of four digits. The last group may end with one or two
equals signs, and then it leaves no bits over. -/
def decode : List Char → Option (List UInt8)
  | [] => some []
  | a :: b :: c :: d :: rest =>
    if d ≠ '=' then do
      let w ← value? a
      let x ← value? b
      let y ← value? c
      let z ← value? d
      let bytes ← decode rest
      some (UInt8.ofNat (w * 4 + x / 16) :: UInt8.ofNat (x % 16 * 16 + y / 4) ::
        UInt8.ofNat (y % 4 * 64 + z) :: bytes)
    else if rest ≠ [] then none
    else if c ≠ '=' then do
      let w ← value? a
      let x ← value? b
      let y ← value? c
      if y % 4 = 0 then some [UInt8.ofNat (w * 4 + x / 16), UInt8.ofNat (x % 16 * 16 + y / 4)]
      else none
    else do
      let w ← value? a
      let x ← value? b
      if x % 16 = 0 then some [UInt8.ofNat (w * 4 + x / 16)] else none
  | _ => none

/-- No digit is an equals sign or a line feed. -/
theorem digit_ne {n : Nat} (h : n < 64) : digit n ≠ '=' ∧ digit n ≠ '\n' := by
  have hall : ∀ n < 64, digit n ≠ '=' ∧ digit n ≠ '\n' := by decide
  exact hall n h

section Groups

variable (a b c : UInt8)

/-- The first byte of a group is put together of its first two digits. -/
theorem ofNat_first (low : Nat) (h : low < 16) :
    UInt8.ofNat (a.toNat / 4 * 4 + (a.toNat % 4 * 16 + low) / 16) = a := by
  have hbyte : a.toNat / 4 * 4 + (a.toNat % 4 * 16 + low) / 16 = a.toNat := by omega
  rw [hbyte, UInt8.ofNat_toNat]

/-- The second byte is put together of the low part of the second digit and the high part of the
third one. -/
theorem ofNat_second (high low : Nat) (h : low < 4) :
    UInt8.ofNat ((high * 16 + b.toNat / 16) % 16 * 16 + (b.toNat % 16 * 4 + low) / 4) = b := by
  have hlt := b.toNat_lt
  have hbyte : (high * 16 + b.toNat / 16) % 16 * 16 + (b.toNat % 16 * 4 + low) / 4 = b.toNat := by
    omega
  rw [hbyte, UInt8.ofNat_toNat]

/-- The third byte is put together of the low part of the third digit and the fourth one. -/
theorem ofNat_third (high : Nat) :
    UInt8.ofNat ((high * 4 + c.toNat / 64) % 4 * 64 + c.toNat % 64) = c := by
  have hlt := c.toNat_lt
  have hbyte : (high * 4 + c.toNat / 64) % 4 * 64 + c.toNat % 64 = c.toNat := by omega
  rw [hbyte, UInt8.ofNat_toNat]

end Groups

/-- What is encoded is decoded to the same bytes. -/
theorem decode_encode (bytes : List UInt8) : decode (encode bytes) = some bytes := by
  induction bytes using encode.induct with
  | case1 a b c rest ih =>
      have ha := a.toNat_lt
      have hb := b.toNat_lt
      have hc := c.toNat_lt
      rw [encode, decode, if_pos (digit_ne (Nat.mod_lt _ (by decide))).1,
        value?_digit (by omega), value?_digit (by omega), value?_digit (by omega),
        value?_digit (by omega), ih]
      simp only [bind, Option.bind, ofNat_first a (b.toNat / 16) (by omega),
        ofNat_second b _ (c.toNat / 64) (by omega), ofNat_third]
  | case2 a b =>
      have ha := a.toNat_lt
      have hb := b.toNat_lt
      have hspare : b.toNat % 16 * 4 % 4 = 0 := Nat.mul_mod_left _ _
      have hsecond := ofNat_second b (a.toNat % 4) 0 (by decide)
      rw [Nat.add_zero] at hsecond
      rw [encode, decode, if_neg (by simp), if_neg (by simp),
        if_pos (digit_ne (show b.toNat % 16 * 4 < 64 by omega)).1,
        value?_digit (by omega), value?_digit (by omega), value?_digit (by omega)]
      simp only [bind, Option.bind, if_pos hspare, ofNat_first a (b.toNat / 16) (by omega),
        hsecond]
  | case3 a =>
      have ha := a.toNat_lt
      have hspare : a.toNat % 4 * 16 % 16 = 0 := Nat.mul_mod_left _ _
      have hfirst := ofNat_first a 0 (by decide)
      rw [Nat.add_zero] at hfirst
      rw [encode, decode, if_neg (by simp), if_neg (by simp), if_neg (by simp),
        value?_digit (by omega), value?_digit (by omega)]
      simp only [bind, Option.bind, if_pos hspare, hfirst]
  | case4 => rfl

/-- What is encoded is written on one line. -/
theorem feed_not_mem_encode (bytes : List UInt8) : '\n' ∉ encode bytes := by
  have hdigit : ∀ n < 64, '\n' ≠ digit n := fun n h => (digit_ne h).2.symm
  induction bytes using encode.induct with
  | case1 a b c rest ih =>
      have ha := a.toNat_lt
      have hb := b.toNat_lt
      have hc := c.toNat_lt
      simp only [encode, List.mem_cons, not_or]
      exact ⟨hdigit _ (by omega), hdigit _ (by omega), hdigit _ (by omega), hdigit _ (by omega), ih⟩
  | case2 a b =>
      have ha := a.toNat_lt
      have hb := b.toNat_lt
      simp only [encode, List.mem_cons, not_or]
      exact ⟨hdigit _ (by omega), hdigit _ (by omega), hdigit _ (by omega), by decide, by simp⟩
  | case3 a =>
      have ha := a.toNat_lt
      simp only [encode, List.mem_cons, not_or]
      exact ⟨hdigit _ (by omega), hdigit _ (by omega), by decide, by decide, by simp⟩
  | case4 => exact List.not_mem_nil

end MiniProgram.Base64
