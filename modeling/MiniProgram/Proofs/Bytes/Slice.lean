import Mathlib.Data.Nat.Notation

/-!
# Texts that are cut at byte offsets

An offset counts the bytes of a text in UTF-8. It may be used to cut the text only between two
characters, and a piece of a text may not end in front of its start. Each operation here checks what
it is given and answers with a `Fault` otherwise, so what succeeds was in order.

Read `cut?_eq_some_iff` first: the offsets at which a text may be cut are the sizes of what stands
in front of a character.
-/

namespace MiniProgram.Bytes

/-- What a program that counts bytes can do wrong. -/
inductive Fault where
  /-- The offset is behind the end of the text or inside of a character. -/
  | offset (offset : ℕ)
  /-- The piece ends in front of its start. -/
  | order (start stop : ℕ)
  /-- The index is behind the end of the vector. -/
  | index (index : ℕ)
  /-- The difference is below zero. -/
  | negative (minuend subtrahend : ℕ)
  /-- The block is not closed. -/
  | unclosed (start : ℕ)
  /-- The declaration starts in front of the end of an earlier one, or is empty. -/
  | overlap (start stop : ℕ)
  /-- The repetition takes more turns than it was given. -/
  | turns
  deriving DecidableEq, Repr

/-- The number of bytes of a text. -/
def size (text : List Char) : ℕ :=
  (String.ofList text).utf8ByteSize

/-- `cut? offset text` cuts a text at an offset between two characters. -/
def cut? : ℕ → List Char → Option (List Char × List Char)
  | 0, text => some ([], text)
  | _ + 1, [] => none
  | offset + 1, c :: rest =>
    if c.utf8Size ≤ offset + 1 then
      (cut? (offset + 1 - c.utf8Size) rest).map fun parts => (c :: parts.1, parts.2)
    else none

/-- `sliceFrom text start` is the text from an offset on. -/
def sliceFrom (text : List Char) (start : ℕ) : Except Fault (List Char) :=
  match cut? start text with
  | some parts => .ok parts.2
  | none => .error (.offset start)

/-- `sliceTo text stop` is the text up to an offset. -/
def sliceTo (text : List Char) (stop : ℕ) : Except Fault (List Char) :=
  match cut? stop text with
  | some parts => .ok parts.1
  | none => .error (.offset stop)

/-- `slice text start stop` is the text between two offsets. -/
def slice (text : List Char) (start stop : ℕ) : Except Fault (List Char) :=
  if start ≤ stop then do sliceFrom (← sliceTo text stop) start
  else .error (.order start stop)

/-- `minus m n` is the difference of two numbers. -/
def minus (m n : ℕ) : Except Fault ℕ :=
  if n ≤ m then .ok (m - n) else .error (.negative m n)

/-- `charIndices start text` lists the characters of a text that starts at an offset, each with its
own offset. -/
def charIndices (start : ℕ) : List Char → List (ℕ × Char)
  | [] => []
  | c :: rest => (start, c) :: charIndices (start + c.utf8Size) rest

section Size

variable {text front rest middle : List Char}

/-- The empty text has no bytes. -/
@[simp]
theorem size_nil : size [] = 0 := rfl

/-- The sizes of two parts add up. -/
@[simp]
theorem size_append (front rest : List Char) : size (front ++ rest) = size front + size rest := by
  rw [size, String.ofList_append, String.utf8ByteSize_append]
  rfl

/-- A character adds its own size. -/
@[simp]
theorem size_cons (c : Char) (rest : List Char) : size (c :: rest) = c.utf8Size + size rest := by
  rw [← List.singleton_append, size_append]
  simp [size]

/-- Only the empty text has no bytes. -/
theorem size_eq_zero_iff : size text = 0 ↔ text = [] := by
  cases text with
  | nil => simp
  | cons c rest =>
      have := c.utf8Size_pos
      simp only [size_cons, reduceCtorEq, iff_false]
      omega

/-- A text is cut between two characters, and the offset is the size of what stands in front. -/
theorem cut?_eq_some_iff {offset : ℕ} :
    cut? offset text = some (front, rest) ↔ text = front ++ rest ∧ size front = offset := by
  fun_induction cut? offset text generalizing front with
  | case1 text =>
      rw [Option.some.injEq, Prod.mk.injEq, size_eq_zero_iff]
      constructor
      · rintro ⟨rfl, rfl⟩
        exact ⟨rfl, rfl⟩
      · rintro ⟨rfl, rfl⟩
        exact ⟨rfl, rfl⟩
  | case2 offset =>
      simp only [reduceCtorEq, List.nil_eq, List.append_eq_nil_iff, false_iff]
      rintro ⟨⟨rfl, -⟩, hsize⟩
      exact absurd hsize (Nat.succ_ne_zero offset).symm
  | case3 offset c text hfits ih =>
      rw [Option.map_eq_some_iff]
      constructor
      · rintro ⟨⟨first, last⟩, hcut, hparts⟩
        cases hparts
        obtain ⟨htext, hsize⟩ := ih.1 hcut
        have hsize : size (c :: first) = offset + 1 := by
          rw [size_cons, hsize]
          omega
        exact ⟨by rw [htext]; rfl, hsize⟩
      · rintro ⟨htext, hsize⟩
        cases front with
        | nil => cases hsize
        | cons d front =>
            obtain ⟨rfl, hrest⟩ := List.cons.inj htext
            rw [size_cons] at hsize
            exact ⟨(front, rest), ih.2 ⟨hrest, by omega⟩, rfl⟩
  | case4 offset c text hfits =>
      simp only [reduceCtorEq, false_iff]
      rintro ⟨htext, hsize⟩
      cases front with
      | nil => cases hsize
      | cons d front =>
          obtain ⟨rfl, -⟩ := List.cons.inj htext
          rw [size_cons] at hsize
          omega

/-- A text is cut behind its first part at the size of that part. -/
theorem cut?_append (front rest : List Char) :
    cut? (size front) (front ++ rest) = some (front, rest) :=
  cut?_eq_some_iff.2 ⟨rfl, rfl⟩

end Size

section Slices

/-- From the size of its first part on, a text is its second part. -/
@[simp]
theorem sliceFrom_append (front rest : List Char) :
    sliceFrom (front ++ rest) (size front) = .ok rest := by
  rw [sliceFrom, cut?_append]

/-- Up to the size of its first part, a text is its first part. -/
@[simp]
theorem sliceTo_append (front rest : List Char) :
    sliceTo (front ++ rest) (size front) = .ok front := by
  rw [sliceTo, cut?_append]

/-- Between the two sizes stands the part in the middle. -/
theorem slice_append (front middle rest : List Char) :
    slice (front ++ (middle ++ rest)) (size front) (size front + size middle) = .ok middle := by
  have hstop := sliceTo_append (front ++ middle) rest
  rw [List.append_assoc, size_append] at hstop
  rw [slice, if_pos (Nat.le_add_right _ _), hstop]
  exact sliceFrom_append front middle

/-- The characters of two parts are listed one after the other, with the offsets moved on. -/
theorem charIndices_append (start : ℕ) (front rest : List Char) :
    charIndices start (front ++ rest) =
      charIndices start front ++ charIndices (start + size front) rest := by
  induction front generalizing start with
  | nil => rfl
  | cons c front ih =>
      rw [List.cons_append, charIndices, charIndices, ih, size_cons, Nat.add_assoc,
        List.cons_append]

/-- A character is listed with the size of what stands in front of it. -/
theorem mem_charIndices_iff {start : ℕ} {text : List Char} {entry : ℕ × Char} :
    entry ∈ charIndices start text ↔
      ∃ front rest, text = front ++ entry.2 :: rest ∧ entry.1 = start + size front := by
  constructor
  · intro h
    induction text generalizing start with
    | nil => cases h
    | cons c text ih =>
        rw [charIndices, List.mem_cons] at h
        obtain rfl | h := h
        · exact ⟨[], text, rfl, rfl⟩
        · obtain ⟨front, rest, rfl, hoffset⟩ := ih h
          exact ⟨c :: front, rest, rfl, by rw [hoffset, size_cons, Nat.add_assoc]⟩
  · rintro ⟨front, rest, rfl, hoffset⟩
    rw [charIndices_append, charIndices, ← hoffset]
    exact List.mem_append_right _ List.mem_cons_self

/-- The offset of a character is the size of what stands in front of it. -/
theorem getElem?_charIndices (start : ℕ) (text : List Char) (n : ℕ) :
    (charIndices start text)[n]? = text[n]?.map fun c => (start + size (text.take n), c) := by
  induction text generalizing start n with
  | nil => rfl
  | cons c rest ih =>
      cases n with
      | zero => rfl
      | succ n =>
          rw [charIndices, List.getElem?_cons_succ, ih, List.getElem?_cons_succ,
            List.take_succ_cons, size_cons, Nat.add_assoc]

end Slices

end MiniProgram.Bytes
