import Mathlib

/-!
# he-transformer: slots, ciphertexts and faults

The values the executor moves between kernels and over the client protocol. A tensor is a
list of `HEType` slots; each slot is a tagged union of a plaintext vector and a CKKS
ciphertext, plus its `complex_packing` flag (spec §3, *HEType*). A ciphertext is kept as
SEAL keeps it: its `parms_id`, its scale, and its coefficient limbs, one `uint64` list per
coefficient modulus per polynomial.

Failures are values: an `NGRAPH_CHECK` that fails, an `unordered_map::at` that throws, an
argument SEAL rejects, and the undefined behaviour of an unchecked `operator[]` past the end
or of a null dereference, which the model does not run past.
-/

namespace HeTransformer

/-- How a step of the program fails. -/
inductive Fault where
  /-- `NGRAPH_CHECK` failed with this message. -/
  | check (msg : String)
  /-- `std::out_of_range` from `unordered_map::at`. -/
  | outOfRange
  /-- Undefined behaviour: an unchecked index past the end, or a null dereference. -/
  | undefined (what : String)
  /-- `std::invalid_argument` thrown by SEAL. -/
  | invalidArgument (msg : String)
  /-- ngraph's `unsupported_op`, with its message. -/
  | unsupportedOp (msg : String)
  /-- Modelled from the spec: the `ScaleMismatch` of `match_modulus_and_scale_inplace`, which
  cannot reconcile two scales (seal_util.cpp is not among the sources). -/
  | scaleMismatch
  deriving DecidableEq, Repr

/-- `HEPlaintext`: the real values held by one plaintext slot. -/
abbrev HEPlaintext := List Float

/-- `seal::parms_id_type`, named by the chain index of the level it identifies; `zero` is the
`parms_id_zero` of a default-constructed ciphertext, which names no level of any context. -/
inductive ParmsId where
  | zero
  | level (chainIndex : Nat)
  deriving DecidableEq, Repr

/-- A coefficient-modulus component of one polynomial: `poly_modulus_degree` limbs. -/
abbrev Row := List UInt64

/-- One ciphertext polynomial: a row per coefficient modulus of its level. -/
abbrev Poly := List Row

/-- `seal::Ciphertext` inside a `SealCiphertextWrapper`. The scale is a double, kept by its
IEEE-754 bit pattern, which `HeTransformer.Seal.Double` reads. -/
structure Ciphertext where
  parmsId : ParmsId
  scale : UInt64
  data : List Poly
  deriving DecidableEq, Repr

namespace Ciphertext

/-- `HESealBackend::create_empty_ciphertext()`: a default `seal::Ciphertext`. -/
def empty : Ciphertext := ⟨.zero, 0, []⟩

/-- `seal::Ciphertext::size()`: the number of polynomials. -/
def size (c : Ciphertext) : Nat := c.data.length

end Ciphertext

/-- The two variants of a slot. -/
inductive HEValue where
  | plaintext (p : HEPlaintext)
  | ciphertext (c : Ciphertext)

/-- `HEType`: one slot of a tensor, a tagged union with its `complex_packing` flag. -/
structure HEType where
  value : HEValue
  complexPacking : Bool

namespace HEType

/-- `HEType(plain, complex_packing)`. -/
def ofPlain (p : HEPlaintext) (complexPacking : Bool) : HEType := ⟨.plaintext p, complexPacking⟩

def isPlaintext (t : HEType) : Bool :=
  match t.value with
  | .plaintext _ => true
  | .ciphertext _ => false

def isCiphertext (t : HEType) : Bool := !t.isPlaintext

/-- Modelled from the spec: `HEType::set_plaintext` (he_type.hpp is not among the sources)
replaces the value in place and keeps the slot's packing flag. -/
def setPlaintext (t : HEType) (p : HEPlaintext) : HEType := { t with value := .plaintext p }

@[simp] theorem isPlaintext_ofPlain (p : HEPlaintext) (b : Bool) : (ofPlain p b).isPlaintext := rfl

@[simp] theorem setPlaintext_value (t : HEType) (p : HEPlaintext) :
    (t.setPlaintext p).value = .plaintext p := rfl

@[simp] theorem setPlaintext_complexPacking (t : HEType) (p : HEPlaintext) :
    (t.setPlaintext p).complexPacking = t.complexPacking := rfl

end HEType

/-- Modelled from the spec: `scalar_relu_seal` on a plaintext (relu_seal.cpp is not among the
sources) computes `max(x, 0)` on every value. -/
def scalarReluSeal (p : HEPlaintext) : HEPlaintext := p.map fun x => max x 0

/-- Modelled from the spec: `scalar_bounded_relu_seal` clamps every value to `[0, alpha]`. -/
def scalarBoundedReluSeal (p : HEPlaintext) (alpha : Float) : HEPlaintext :=
  p.map fun x => min (max x 0) alpha

/-! ## `std::vector` operations -/

/-- `std::vector::resize(n, v)`: keeps the first `n` elements and pads with copies of `v`. -/
def resize {α : Type} (l : List α) (n : Nat) (v : α) : List α :=
  l.take n ++ List.replicate (n - l.length) v

@[simp] theorem length_resize {α : Type} (l : List α) (n : Nat) (v : α) :
    (resize l n v).length = n := by
  simp only [resize, List.length_append, List.length_take, List.length_replicate]
  omega

/-- The accumulate-and-flush loop that cuts a list into consecutive batches: an element is
pushed onto the current batch, a batch that reaches `n` elements is emitted, and a nonempty
last batch is emitted after the loop. -/
def batchLoop {α : Type} (n : Nat) : List α → List α → List (List α)
  | batch, [] => if batch.isEmpty then [] else [batch]
  | batch, x :: xs =>
      if (batch ++ [x]).length = n then (batch ++ [x]) :: batchLoop n [] xs
      else batchLoop n (batch ++ [x]) xs

theorem flatten_batchLoop {α : Type} (n : Nat) (batch xs : List α) :
    (batchLoop n batch xs).flatten = batch ++ xs := by
  induction xs generalizing batch with
  | nil => cases batch <;> simp [batchLoop]
  | cons x xs ih =>
      simp only [batchLoop]
      split
      · simp [ih]
      · simp [ih]

theorem ne_nil_of_mem_batchLoop {α : Type} {n : Nat} {batch xs : List α} {b : List α}
    (h : b ∈ batchLoop n batch xs) : b ≠ [] := by
  induction xs generalizing batch with
  | nil =>
      cases batch with
      | nil => simp [batchLoop] at h
      | cons y ys => simp only [batchLoop, List.isEmpty_cons] at h; simp_all
  | cons x xs ih =>
      simp only [batchLoop] at h
      split at h
      · rcases List.mem_cons.mp h with rfl | h
        · simp
        · exact ih h
      · exact ih h

/-- Every batch but the last is full: the loop emits a batch early only when it reaches `n`. -/
theorem length_of_mem_dropLast_batchLoop {α : Type} {n : Nat} {batch xs b : List α}
    (h : b ∈ (batchLoop n batch xs).dropLast) : b.length = n := by
  induction xs generalizing batch with
  | nil =>
      simp only [batchLoop] at h
      split at h <;> simp at h
  | cons x xs ih =>
      simp only [batchLoop] at h
      split at h
      · next hfull =>
          cases hr : batchLoop n [] xs with
          | nil => simp [hr] at h
          | cons c cs =>
              rw [hr, List.dropLast_cons₂] at h
              rcases List.mem_cons.1 h with rfl | h
              · exact hfull
              · exact ih (by rw [hr]; exact h)
      · exact ih h

/-- From a batch shorter than `n`, no batch is longer than `n`. -/
theorem length_le_of_mem_batchLoop {α : Type} {n : Nat} {batch xs b : List α}
    (hb : batch.length < n) (h : b ∈ batchLoop n batch xs) : b.length ≤ n := by
  induction xs generalizing batch with
  | nil =>
      simp only [batchLoop] at h
      split at h
      · simp at h
      · rw [List.mem_singleton.1 h]
        exact hb.le
  | cons x xs ih =>
      simp only [batchLoop] at h
      split at h
      · next hfull =>
          rcases List.mem_cons.1 h with rfl | h
          · exact hfull.le
          · exact ih (by simp only [List.length_nil]; omega) h
      · next hfull =>
          simp only [List.length_append, List.length_singleton] at hfull
          exact ih (by simp only [List.length_append, List.length_singleton]; omega) h

/-- From a batch shorter than `n`, the loop emits `⌈(batch.length + xs.length) / n⌉` batches. -/
theorem length_batchLoop {α : Type} {n : Nat} {batch xs : List α} (hb : batch.length < n) :
    (batchLoop n batch xs).length = (batch.length + xs.length + n - 1) / n := by
  induction xs generalizing batch with
  | nil =>
      cases batch with
      | nil => exact (Nat.div_eq_of_lt (by simp only [List.length_nil] at hb ⊢; omega)).symm
      | cons y ys =>
          show 1 = _
          exact (Nat.div_eq_of_lt_le (by simp only [List.length_cons, List.length_nil]; omega)
            (by simp only [List.length_cons, List.length_nil] at hb ⊢; omega)).symm
  | cons x xs ih =>
      simp only [batchLoop]
      split
      · next hfull =>
          simp only [List.length_append, List.length_singleton] at hfull
          rw [List.length_cons, ih (by simp only [List.length_nil]; omega), List.length_cons,
            show batch.length + (xs.length + 1) + n - 1 = [].length + xs.length + n - 1 + n by
              simp only [List.length_nil]; omega, Nat.add_div_right _ (by omega)]
      · next hfull =>
          simp only [List.length_append, List.length_singleton] at hfull
          rw [ih (by simp only [List.length_append, List.length_singleton]; omega)]
          congr 1
          simp only [List.length_append, List.length_singleton, List.length_cons,
            List.length_nil]
          omega

end HeTransformer
