import HeTransformer.Seal.Double

/-!
# `HESealEncryptionParameters`: validation, `save`, `load` and `same_context`

`save` writes the object bytes of `m_scale` (a `double`), `m_complex_packing` (a `bool`) and
`m_security_level` (a `uint64_t`), then SEAL's own encoding of the SEAL parameters; `load` reads
them back in that order and builds the parameters under the scheme name `"HE_SEAL"`, which
validates them. The object bytes are taken least significant first, as x86-64 lays them out; the
scale is kept as the 64 bits of the `double`, which `save` and `load` copy as they are.

SEAL is not among the sources: its parameters are a type `P`, and what the backend uses of them
(`poly_modulus_degree()`, whether a context built from them has `parameters_set()`, and their
`save`/`load`) is a `SealLibrary`, whose `load` inverts its `save`.

The main result, `load_save`, is that `load` after `save` gives the parameters back and leaves
the stream just past what `save` wrote, for every parameters that `validate_parameters` accepts.
Conversely, `load_validated`: whatever the bytes, what `load` returns passes
`validate_parameters`. Last, `same_context_iff` says what `same_context` compares: the scheme
name and the SEAL parameters, and the second scale with itself as a `double`.
-/

namespace HeTransformer

/-! ## Object bytes -/

/-- The `n` bytes of the number `v`, least significant first. -/
def leBytes : Nat → Nat → List UInt8
  | 0, _ => []
  | n + 1, v => (v % 256).toUInt8 :: leBytes n (v / 256)

/-- The number whose bytes, least significant first, are `bs`. -/
def leValue (bs : List UInt8) : Nat := bs.foldr (fun b v => b.toNat + 256 * v) 0

@[simp] theorem length_leBytes : ∀ (n v : Nat), (leBytes n v).length = n
  | 0, _ => rfl
  | n + 1, v => congrArg (· + 1) (length_leBytes n (v / 256))

theorem leValue_leBytes : ∀ (n v : Nat), leValue (leBytes n v) = v % 256 ^ n
  | 0, v => (Nat.mod_one v).symm
  | n + 1, v => by
      show ((v % 256).toUInt8).toNat + 256 * leValue (leBytes n (v / 256)) = _
      rw [leValue_leBytes n, Nat.pow_succ', Nat.mod_mul]
      congr 1
      exact UInt8.toNat_ofNat_of_lt (Nat.mod_lt _ (by decide))

/-- `stream.read(&x, n)`: the next `n` bytes as a number, and the rest of the stream; reading
past the end leaves `x` unset. -/
def readBytes (n : Nat) (bs : List UInt8) : Except Fault (Nat × List UInt8) :=
  if n ≤ bs.length then .ok (leValue (bs.take n), bs.drop n)
  else .error (.undefined "stream.read past the end")

theorem readBytes_leBytes (n v : Nat) (rest : List UInt8) :
    readBytes n (leBytes n v ++ rest) = .ok (v % 256 ^ n, rest) := by
  have hlen := length_leBytes n v
  rw [readBytes, if_pos (by simp [hlen]), List.take_left' hlen, List.drop_left' hlen,
    leValue_leBytes]

/-- The object bytes of a `bool`: 1 for `true`, 0 for `false`. -/
def boolByte (b : Bool) : Nat := if b then 1 else 0

/-- A `bool` read from its object byte; any byte other than 0 and 1 is no `bool`. -/
def byteBool : Nat → Except Fault Bool
  | 0 => .ok false
  | 1 => .ok true
  | _ => .error (.undefined "bool read from a byte other than 0 or 1")

theorem byteBool_boolByte (b : Bool) : byteBool (boolByte b) = .ok b := by
  cases b <;> rfl

/-! ## The parameters -/

/-- What the backend uses of SEAL's `EncryptionParameters` `P`: `poly_modulus_degree()`,
whether `SEALContext(parms, true, seal_security_level(level))` has `parameters_set()`, and
`save`/`load`, of which `load` inverts `save`. -/
structure SealLibrary (P : Type) where
  polyModulusDegree : P → UInt64
  parametersSet : P → UInt64 → Bool
  save : P → List UInt8
  load : List UInt8 → Except Fault (P × List UInt8)
  load_save : ∀ p rest, load (save p ++ rest) = .ok (p, rest)

/-- The members of `HESealEncryptionParameters`; `scale` is the bits of `m_scale`. -/
structure HESealEncryptionParameters (P : Type) where
  schemeName : String
  sealEncryptionParameters : P
  securityLevel : UInt64
  scale : UInt64
  complexPacking : Bool

variable {P : Type} (lib : SealLibrary P)

/-- The degrees `validate_parameters` accepts. -/
def validPolyModulus : List UInt64 := [1024, 2048, 4096, 8192, 16384, 32768]

/-- The security levels `validate_parameters` accepts. -/
def validSecurityLevel : List UInt64 := [0, 128, 192, 256]

/-- `validate_parameters`. -/
def validateParameters (p : HESealEncryptionParameters P) : Except Fault Unit :=
  if p.schemeName ≠ "HE_SEAL" then .error (.check ("Invalid scheme name " ++ p.schemeName))
  else if lib.polyModulusDegree p.sealEncryptionParameters ∉ validPolyModulus then
    .error (.check "poly_modulus_degree must be 1024, 2048, 4096, 8192, 16384, 32768")
  else if p.securityLevel ∉ validSecurityLevel then
    .error (.check "security_level must be 0, 128, 192, 256")
  else if !lib.parametersSet p.sealEncryptionParameters p.securityLevel then
    .error (.check "Invalid parameters")
  else .ok ()

/-- The constructor from a scheme name, SEAL parameters, security level, scale and packing
flag: it validates what it builds. -/
def HESealEncryptionParameters.make (schemeName : String) (parms : P) (securityLevel : UInt64)
    (scale : UInt64) (complexPacking : Bool) : Except Fault (HESealEncryptionParameters P) :=
  let p : HESealEncryptionParameters P := ⟨schemeName, parms, securityLevel, scale, complexPacking⟩
  (fun _ => p) <$> validateParameters lib p

/-- `save`. -/
def HESealEncryptionParameters.save (p : HESealEncryptionParameters P) : List UInt8 :=
  leBytes 8 p.scale.toNat ++ leBytes 1 (boolByte p.complexPacking) ++
    leBytes 8 p.securityLevel.toNat ++ lib.save p.sealEncryptionParameters

/-- `load`: the parameters, and the rest of the stream. -/
def HESealEncryptionParameters.load (bs : List UInt8) :
    Except Fault (HESealEncryptionParameters P × List UInt8) := do
  let (scale, bs) ← readBytes 8 bs
  let (packingByte, bs) ← readBytes 1 bs
  let complexPacking ← byteBool packingByte
  let (securityLevel, bs) ← readBytes 8 bs
  let (parms, bs) ← lib.load bs
  let p ← HESealEncryptionParameters.make lib "HE_SEAL" parms securityLevel.toUInt64
    scale.toUInt64 complexPacking
  pure (p, bs)

/-! ## `load` inverts `save` -/

theorem toUInt64_toNat (x : UInt64) : x.toNat.toUInt64 = x :=
  UInt64.toNat.inj (UInt64.toNat_ofNat_of_lt x.toNat_lt_size)

theorem readBytes_uint64 (x : UInt64) (rest : List UInt8) :
    readBytes 8 (leBytes 8 x.toNat ++ rest) = .ok (x.toNat, rest) := by
  rw [readBytes_leBytes, Nat.mod_eq_of_lt (show x.toNat < 256 ^ 8 from x.toNat_lt_size)]

/-- Parameters that `validate_parameters` accepts have the scheme name `"HE_SEAL"`, and the
constructor gives them back. -/
theorem make_of_validate {p : HESealEncryptionParameters P}
    (hv : validateParameters lib p = .ok ()) :
    HESealEncryptionParameters.make lib "HE_SEAL" p.sealEncryptionParameters p.securityLevel
      p.scale p.complexPacking = .ok p := by
  have hs : p.schemeName = "HE_SEAL" := by
    by_contra h
    simp [validateParameters, h] at hv
  obtain ⟨_, _, _, _, _⟩ := p
  cases hs
  simp only [HESealEncryptionParameters.make, hv]
  rfl

/-- `load` reads back the fields in the order `save` writes them and hands them to the
constructor, under the scheme name `"HE_SEAL"`; the stream is left just past them. -/
theorem load_fields (scale : UInt64) (complexPacking : Bool) (securityLevel : UInt64) (parms : P)
    (rest : List UInt8) :
    HESealEncryptionParameters.load lib (leBytes 8 scale.toNat ++
        leBytes 1 (boolByte complexPacking) ++ leBytes 8 securityLevel.toNat ++ lib.save parms ++
        rest) =
      (fun p => (p, rest)) <$>
        HESealEncryptionParameters.make lib "HE_SEAL" parms securityLevel scale complexPacking := by
  have hbyte : boolByte complexPacking % 256 ^ 1 = boolByte complexPacking := by
    cases complexPacking <;> rfl
  simp only [List.append_assoc, HESealEncryptionParameters.load, bind, Except.bind,
    readBytes_uint64, readBytes_leBytes 1 (boolByte complexPacking), hbyte, byteBool_boolByte,
    lib.load_save, toUInt64_toNat]
  cases HESealEncryptionParameters.make lib "HE_SEAL" parms securityLevel scale complexPacking <;>
    rfl

/-- `load` after `save` gives back parameters that `validate_parameters` accepts, with the
same scale bits, and leaves the stream just past what `save` wrote. -/
theorem load_save (p : HESealEncryptionParameters P) (hv : validateParameters lib p = .ok ())
    (rest : List UInt8) :
    HESealEncryptionParameters.load lib (p.save lib ++ rest) = .ok (p, rest) := by
  rw [HESealEncryptionParameters.save, load_fields, make_of_validate lib hv]
  rfl

/-- A sample SEAL library whose parameters are the degree alone, saved as its 8 bytes, and
accepted at every security level. -/
def degreeLibrary : SealLibrary UInt64 where
  polyModulusDegree := id
  parametersSet := fun _ _ => true
  save := fun d => leBytes 8 d.toNat
  load := fun bs => (fun r => (r.1.toUInt64, r.2)) <$> readBytes 8 bs
  load_save := fun d rest => by
    show (fun r => (r.1.toUInt64, r.2)) <$> readBytes 8 (leBytes 8 d.toNat ++ rest) = _
    rw [readBytes_uint64]
    show Except.ok (d.toNat.toUInt64, rest) = _
    rw [toUInt64_toNat]

/-- The default real-packing parameters (degree 1024, security level 0, scale `2^30`, whose
`double` bits are `0x41D0000000000000`) come back from `load` after `save`, before a trailing
byte. -/
theorem default_parameters_load_save :
    validateParameters degreeLibrary ⟨"HE_SEAL", 1024, 0, 0x41D0000000000000, false⟩ = .ok () ∧
      HESealEncryptionParameters.load degreeLibrary
        ((⟨"HE_SEAL", 1024, 0, 0x41D0000000000000, false⟩ : HESealEncryptionParameters UInt64).save
          degreeLibrary ++ [7]) = .ok (⟨"HE_SEAL", 1024, 0, 0x41D0000000000000, false⟩, [7]) :=
  ⟨rfl, load_save degreeLibrary ⟨"HE_SEAL", 1024, 0, 0x41D0000000000000, false⟩ (by rfl) [7]⟩

/-! ## What `load` accepts -/

/-- The constructor returns only parameters that `validate_parameters` accepts, with the scheme
name, SEAL parameters, security level, scale and packing flag it was given. -/
theorem make_ok {schemeName : String} {parms : P} {securityLevel scale : UInt64}
    {complexPacking : Bool} {p : HESealEncryptionParameters P}
    (h : HESealEncryptionParameters.make lib schemeName parms securityLevel scale complexPacking =
      .ok p) :
    p = ⟨schemeName, parms, securityLevel, scale, complexPacking⟩ ∧
      validateParameters lib p = .ok () := by
  simp only [HESealEncryptionParameters.make, Functor.map, Except.map] at h
  split at h
  · cases h
  · next hv =>
      cases h
      exact ⟨rfl, hv⟩

/-- **What `load` accepts is well formed.** Whatever the bytes, parameters that `load` returns
have the scheme name `"HE_SEAL"` and pass `validate_parameters`. -/
theorem load_validated (bs : List UInt8) (p : HESealEncryptionParameters P)
    (rest : List UInt8) (h : HESealEncryptionParameters.load lib bs = .ok (p, rest)) :
    p.schemeName = "HE_SEAL" ∧ validateParameters lib p = .ok () := by
  simp only [HESealEncryptionParameters.load, bind, Except.bind, pure, Except.pure] at h
  -- each read either fails, and so does `load`, or goes on to the next
  repeat' split at h <;> try cases h
  next hmake =>
    obtain ⟨rfl, hv⟩ := make_ok lib hmake
    exact ⟨rfl, hv⟩

-- The bytes of the default real-packing parameters, read by the sample library.
example :
    HESealEncryptionParameters.load degreeLibrary
        (leBytes 8 0x41D0000000000000 ++ [0] ++ leBytes 8 0 ++ leBytes 8 1024) =
      .ok (⟨"HE_SEAL", 1024, 0, 0x41D0000000000000, false⟩, []) :=
  rfl

/-! ## `operator==` and `same_context`

`operator==` compares the scales with `==` on `double`s, so parameters whose scale is a NaN are
not equal to themselves; `validate_parameters` does not look at the scale, and `load` takes any
8 bytes for it. -/

section Equality

variable [DecidableEq P]

/-- `operator==`; SEAL's `operator==` on its parameters, which compares their `parms_id`, a hash
of all of them, is taken as equality. -/
def HESealEncryptionParameters.operatorEq (p other : HESealEncryptionParameters P) : Bool :=
  other.schemeName == p.schemeName &&
    decide (other.sealEncryptionParameters = p.sealEncryptionParameters) &&
    other.securityLevel == p.securityLevel && doubleEq other.scale p.scale &&
    other.complexPacking == p.complexPacking

/-- `same_context`: `operator==` after copying the packing flag, the security level and the
scale of `parms2` into `parms1` (`complex_packing()` and `security_level()` return the members
by reference, and `set_scale` sets `m_scale`). -/
def HESealEncryptionParameters.sameContext (parms1 parms2 : HESealEncryptionParameters P) :
    Bool :=
  let p1 := { parms1 with complexPacking := parms2.complexPacking,
                          securityLevel := parms2.securityLevel, scale := parms2.scale }
  p1.operatorEq parms2

/-- **`same_context` compares the scheme and the SEAL parameters, and the second scale with
itself.** Two parameters are in the same context exactly when their scheme names and SEAL
parameters agree and the scale of `parms2` is no NaN: whatever the first's packing, security
level and scale. So `same_context(p, p)` is false for parameters whose scale is a NaN, which
`load` accepts. -/
theorem same_context_iff (parms1 parms2 : HESealEncryptionParameters P) :
    parms1.sameContext parms2 = true ↔
      parms1.schemeName = parms2.schemeName ∧
        parms1.sealEncryptionParameters = parms2.sealEncryptionParameters ∧
        doubleIsNaN parms2.scale = false := by
  simp only [HESealEncryptionParameters.sameContext, HESealEncryptionParameters.operatorEq,
    doubleEq_self, beq_self_eq_true, Bool.and_true, Bool.and_eq_true, beq_iff_eq,
    decide_eq_true_eq, Bool.not_eq_true']
  constructor
  · rintro ⟨⟨h₁, h₂⟩, h₃⟩
    exact ⟨h₁.symm, h₂.symm, h₃⟩
  · rintro ⟨h₁, h₂, h₃⟩
    exact ⟨⟨h₁.symm, h₂.symm⟩, h₃⟩

-- The quiet NaN `0x7FF8000000000000` as the scale: `load` accepts it, and the parameters it
-- returns are not in the same context as themselves.
example :
    HESealEncryptionParameters.load degreeLibrary
        (leBytes 8 0x7FF8000000000000 ++ [0] ++ leBytes 8 0 ++ leBytes 8 1024) =
      .ok (⟨"HE_SEAL", 1024, 0, 0x7FF8000000000000, false⟩, []) ∧
    (⟨"HE_SEAL", 1024, 0, 0x7FF8000000000000, false⟩ :
      HESealEncryptionParameters UInt64).sameContext
        ⟨"HE_SEAL", 1024, 0, 0x7FF8000000000000, false⟩ = false :=
  ⟨rfl, rfl⟩

end Equality

end HeTransformer
