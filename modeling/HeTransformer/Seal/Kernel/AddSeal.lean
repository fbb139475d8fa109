import HeTransformer.Seal.Double

/-!
# `scalar_add_seal` on two ciphertexts

`scalar_add_seal` first brings its two arguments to one level and scale with
`match_modulus_and_scale_inplace`, in place: the argument at the higher chain index is switched
down to the other's `parms_id`, and scales that differ by a drift or by a prime of the level are
reconciled (seal_util.cpp is not among the sources; the match follows spec 4.2). With
`lazy_mod()` off it then calls SEAL's `Evaluator::add`, which checks the two `parms_id`s and
compares the scales with `are_close`, and reduces each sum modulo its row's coefficient modulus.
With it on, an inline loop resizes `out` at the level of its own `parms_id` and adds `arg0`'s
limbs into `out`'s as plain `uint64_t`s: no modulus is applied, and nothing catches a wraparound
(the overflow check is commented out).

Two arguments already at one level and one finite scale are left as they are by the match
(`matchModulusAndScaleInplace_same`). A ciphertext is read limb by limb with
`Ciphertext.limb`, which is 0 past the end, so that the results below speak about every
position at once.
-/

namespace HeTransformer

/-- What SEAL's context data holds of one level: its coefficient moduli, each odd, above 1 and
below `2^60` (SEAL's moduli are primes of at most 60 bits), and its polynomial degree. -/
structure ContextData where
  coeffModulus : List Nat
  polyModulusDegree : Nat
  modulus_valid : ∀ q ∈ coeffModulus, q % 2 = 1 ∧ 1 < q ∧ q < 2 ^ 60
  degree_pos : 0 < polyModulusDegree

/-- What the backend's SEAL objects provide. `contextData` is `SEALContext::get_context_data`
by `parms_id`, `none` being the null pointer, which SEAL's zero `parms_id` always gets.
`rescaleToNext` is `Evaluator::rescale_to_next`, whose limb arithmetic (an inverse NTT and a
rounded division by the level's last prime) is not modelled. `driftRatio` is `2^ε` for the `ε`
of the drift test of `match_modulus_and_scale_inplace`, whose value the spec does not give. -/
structure SealContext where
  contextData : ParmsId → Option ContextData
  zero_none : contextData .zero = none
  rescaleToNext : Ciphertext → Except Fault Ciphertext
  driftRatio : ℚ

/-- A `parms_id` with context data names a level. -/
theorem SealContext.eq_level {ctx : SealContext} {pid : ParmsId} {cd : ContextData}
    (h : ctx.contextData pid = some cd) : ∃ n, pid = .level n := by
  cases pid with
  | zero => rw [ctx.zero_none] at h; cases h
  | level n => exact ⟨n, rfl⟩

/-- A polynomial laid out for a level: a row per coefficient modulus, a limb per coefficient. -/
def PolyFits (cd : ContextData) (p : Poly) : Prop :=
  p.length = cd.coeffModulus.length ∧ ∀ r ∈ p, r.length = cd.polyModulusDegree

/-- A ciphertext of `n` polynomials at `parms_id` `pid` and scale `sc`, laid out for the level
`cd` as SEAL keeps it. -/
structure Ciphertext.Shaped (cd : ContextData) (pid : ParmsId) (sc : UInt64) (n : Nat)
    (ct : Ciphertext) : Prop where
  parmsId_eq : ct.parmsId = pid
  scale_eq : ct.scale = sc
  size_eq : ct.data.length = n
  polys_fit : ∀ p ∈ ct.data, PolyFits cd p

/-- The limb `k` of row `i` of polynomial `j`; 0 past the end. -/
def Ciphertext.limb (ct : Ciphertext) (j i k : Nat) : Nat :=
  (((ct.data.getD j []).getD i []).getD k 0).toNat

/-- Every limb of row `i` is below the row's coefficient modulus. -/
def Ciphertext.Reduced (cd : ContextData) (ct : Ciphertext) : Prop :=
  ∀ (j i k q : Nat), cd.coeffModulus[i]? = some q → ct.limb j i k < q

/-! ## The two additions -/

/-- The inner loop of the inline add on one row: `*operand1 = *operand1 + *operand2`. -/
def addRowWrap (r s : Row) : Row := List.zipWith (· + ·) r s

/-- The inline add on one polynomial, row by row. -/
def addPolyWrap (p p' : Poly) : Poly := List.zipWith addRowWrap p p'

/-- SEAL's `add_poly_coeffmod` on one row: each sum modulo the row's coefficient modulus. -/
def addRowMod (q : Nat) (r s : Row) : Row :=
  List.zipWith (fun x y => ((x.toNat + y.toNat) % q).toUInt64) r s

/-- SEAL's sum of two polynomials of a level with moduli `qs`. -/
def addPolyMod : List Nat → Poly → Poly → Poly
  | q :: qs, r :: p, s :: p' => addRowMod q r s :: addPolyMod qs p p'
  | _, _, _ => []

/-- SEAL's sum of two ciphertexts' polynomials: where one has more, the rest are its own. -/
def addPolysMod (qs : List Nat) : List Poly → List Poly → List Poly
  | p :: ps, p' :: ps' => addPolyMod qs p p' :: addPolysMod qs ps ps'
  | ps, [] => ps
  | [], ps' => ps'

/-- SEAL's `Evaluator::add` (SEAL is not among the sources), as SEAL 3.6.5 has it: both
ciphertexts must be valid for the context and at one `parms_id`, their scales `are_close`, and
the result is the first with the sum of the two, reduced modulo each row's coefficient modulus. -/
def evaluatorAdd (ctx : SealContext) (a b : Ciphertext) : Except Fault Ciphertext :=
  match ctx.contextData a.parmsId, ctx.contextData b.parmsId with
  | none, _ => .error (.invalidArgument "encrypted1 is not valid for encryption parameters")
  | _, none => .error (.invalidArgument "encrypted2 is not valid for encryption parameters")
  | some cd, some _ =>
      if a.parmsId ≠ b.parmsId then
        .error (.invalidArgument "encrypted1 and encrypted2 parameter mismatch")
      else if !areClose a.scale b.scale then .error (.invalidArgument "scale mismatch")
      else .ok { a with data := addPolysMod cd.coeffModulus a.data b.data }

/-- A zero polynomial of a level, as `Ciphertext::resize` fills new polynomials. -/
def zeroPoly (cd : ContextData) : Poly :=
  List.replicate cd.coeffModulus.length (List.replicate cd.polyModulusDegree 0)

/-- The lazy-mod branch: resize `out` to `max_count` polynomials at the level of its own
`parms_id`, then add `arg0`'s first `min_count` polynomials into it, limb by limb. -/
def lazyAddInplace (ctx : SealContext) (arg0 out : Ciphertext) : Except Fault Ciphertext :=
  match ctx.contextData out.parmsId with
  | none => .error (.undefined "*get_context_data(out.parms_id()) is null")
  | some cd =>
      let maxCount := max out.data.length arg0.data.length
      let minCount := min out.data.length arg0.data.length
      let data := resize out.data maxCount (zeroPoly cd)
      let sum := List.zipWith addPolyWrap (data.take minCount) arg0.data
      .ok { out with data := sum ++ data.drop minCount }

/-- `scalar_add_seal(arg0, arg1, out, ...)` on ciphertexts, after the arguments are matched. -/
def scalarAddSealMatched (ctx : SealContext) (lazyMod : Bool) (arg0 arg1 out : Ciphertext) :
    Except Fault Ciphertext :=
  if !lazyMod then evaluatorAdd ctx arg0 arg1 else lazyAddInplace ctx arg0 out

@[simp] theorem scalarAddSealMatched_false (ctx : SealContext) (arg0 arg1 out : Ciphertext) :
    scalarAddSealMatched ctx false arg0 arg1 out = evaluatorAdd ctx arg0 arg1 := rfl

@[simp] theorem scalarAddSealMatched_true (ctx : SealContext) (arg0 arg1 out : Ciphertext) :
    scalarAddSealMatched ctx true arg0 arg1 out = lazyAddInplace ctx arg0 out := rfl

/-! ## Matching the arguments -/

/-- `HESealBackend::get_chain_index`: the chain index of the context data of the ciphertext's
`parms_id`, which is null for a `parms_id` of no level. -/
def getChainIndex (ctx : SealContext) (c : Ciphertext) : Except Fault Nat :=
  match c.parmsId, ctx.contextData c.parmsId with
  | .level n, some _ => .ok n
  | _, _ => .error (.undefined "get_context_data(cipher.ciphertext().parms_id()) is null")

/-- SEAL's `Evaluator::mod_switch_to_next_inplace` on a CKKS ciphertext
(`mod_switch_drop_to_next`): one level down, keeping each polynomial's rows of the next level's
coefficient moduli, at the same scale. -/
def modSwitchToNext (ctx : SealContext) (c : Ciphertext) : Except Fault Ciphertext :=
  match c.parmsId with
  | .level (n + 1) =>
      match ctx.contextData (.level n) with
      | some cd => .ok ⟨.level n, c.scale, c.data.map (·.take cd.coeffModulus.length)⟩
      | none => .error (.invalidArgument "end of modulus switching chain reached")
  | _ => .error (.invalidArgument "end of modulus switching chain reached")

/-- `k` steps of `mod_switch_to_next_inplace`. -/
def modSwitchSteps (ctx : SealContext) : Nat → Ciphertext → Except Fault Ciphertext
  | 0, c => .ok c
  | k + 1, c => modSwitchToNext ctx c >>= modSwitchSteps ctx k

/-- SEAL's `Evaluator::mod_switch_to_inplace(encrypted, parms_id)`: both `parms_id`s must name
levels, the target no higher, and `mod_switch_to_next_inplace` runs until the ciphertext is at
the target. -/
def modSwitchToInplace (ctx : SealContext) (c : Ciphertext) (target : ParmsId) :
    Except Fault Ciphertext :=
  match ctx.contextData c.parmsId, ctx.contextData target, c.parmsId, target with
  | none, _, _, _ => .error (.invalidArgument "encrypted is not valid for encryption parameters")
  | _, none, _, _ => .error (.invalidArgument "parms_id is not valid for encryption parameters")
  | some _, some _, .level i, .level j =>
      if i < j then .error (.invalidArgument "cannot switch to higher level modulus")
      else modSwitchSteps ctx (i - j) c
  | _, _, _, _ => .error (.invalidArgument "encrypted is not valid for encryption parameters")

/-- Modelled from the spec: the drift test of `match_modulus_and_scale_inplace`,
`|log2(sa) - log2(sb)| < ε`, for `ratio = 2^ε`: both scales are positive and finite, and
neither is `ratio` times the other or more. -/
def scaleDrift (ratio : ℚ) (sa sb : UInt64) : Bool :=
  match doubleScaled sa, doubleScaled sb with
  | some a, some b => decide (0 < a ∧ 0 < b ∧ (a : ℚ) < ratio * b ∧ (b : ℚ) < ratio * a)
  | _, _ => false

/-- Modelled from the spec: the scale `sa` is the scale `sb` times one of the primes `qs`. -/
def scaleFactorPrime (qs : List Nat) (sa sb : UInt64) : Bool :=
  match doubleScaled sa, doubleScaled sb with
  | some a, some b => qs.any fun q => a = q * b
  | _, _ => false

/-- The coefficient moduli of the level a `parms_id` names. -/
def levelModuli (ctx : SealContext) (pid : ParmsId) : List Nat :=
  match ctx.contextData pid with
  | some cd => cd.coeffModulus
  | none => []

/-- Modelled from the spec: `match_modulus_and_scale_inplace(a, b)` (seal_util.cpp is not among
the sources; spec 4.2). The operand at the higher chain index is switched down to the other's
`parms_id`. Then, when the scales differ as `double`s: by a drift, `a` takes `b`'s scale; by a
factor that is a prime of the level, the operand with the larger scale is rescaled one step;
otherwise `ScaleMismatch`. It returns the two operands as it leaves them. -/
def matchModulusAndScaleInplace (ctx : SealContext) (a b : Ciphertext) :
    Except Fault (Ciphertext × Ciphertext) := do
  let ia ← getChainIndex ctx a
  let ib ← getChainIndex ctx b
  let a ← if ib < ia then modSwitchToInplace ctx a b.parmsId else pure a
  let b ← if ia < ib then modSwitchToInplace ctx b a.parmsId else pure b
  if doubleEq a.scale b.scale then pure (a, b)
  else if scaleDrift ctx.driftRatio a.scale b.scale then pure ({ a with scale := b.scale }, b)
  else if scaleFactorPrime (levelModuli ctx b.parmsId) a.scale b.scale then
    return (← ctx.rescaleToNext a, b)
  else if scaleFactorPrime (levelModuli ctx a.parmsId) b.scale a.scale then
    return (a, ← ctx.rescaleToNext b)
  else throw .scaleMismatch

/-- `scalar_add_seal(arg0, arg1, out, ...)` on two ciphertexts: the match in place, then the
branch that `lazy_mod()` selects. It returns `arg0` and `arg1` as the match leaves them, and
`out`. -/
def scalarAddSealCipherCipher (ctx : SealContext) (lazyMod : Bool) (arg0 arg1 out : Ciphertext) :
    Except Fault (Ciphertext × Ciphertext × Ciphertext) := do
  let (arg0, arg1) ← matchModulusAndScaleInplace ctx arg0 arg1
  let out ← scalarAddSealMatched ctx lazyMod arg0 arg1 out
  pure (arg0, arg1, out)

/-- Accumulate `xs` into `acc` with `scalar_add_seal(x, acc, acc)`: the output is the second
argument itself, so the lazy-mod branch adds into `acc` as the match leaves it. -/
def accumulate (ctx : SealContext) (lazyMod : Bool) (xs : List Ciphertext) (acc : Ciphertext) :
    Except Fault Ciphertext :=
  xs.foldlM (fun acc x => do
    let (x, acc) ← matchModulusAndScaleInplace ctx x acc
    scalarAddSealMatched ctx lazyMod x acc acc) acc

section Match

variable {ctx : SealContext} {cd : ContextData} {pid : ParmsId}

/-- Two ciphertexts at one level and one scale that is no NaN are left as they are. -/
theorem matchModulusAndScaleInplace_same (hcd : ctx.contextData pid = some cd) {a b : Ciphertext}
    (ha : a.parmsId = pid) (hb : b.parmsId = pid) (hs : a.scale = b.scale)
    (hnan : doubleIsNaN a.scale = false) :
    matchModulusAndScaleInplace ctx a b = .ok (a, b) := by
  obtain ⟨n, rfl⟩ := ctx.eq_level hcd
  have hi : ∀ c : Ciphertext, c.parmsId = .level n → getChainIndex ctx c = .ok n := fun c hc => by
    simp only [getChainIndex, hc, hcd]
  simp only [matchModulusAndScaleInplace, hi a ha, hi b hb, bind, Except.bind, Nat.lt_irrefl,
    if_false, pure, Except.pure, ← hs, doubleEq_self, hnan, Bool.not_false, if_true]

theorem scalarAddSealCipherCipher_of_match {lazyMod : Bool} {arg0 arg1 out a b : Ciphertext}
    (h : matchModulusAndScaleInplace ctx arg0 arg1 = .ok (a, b)) :
    scalarAddSealCipherCipher ctx lazyMod arg0 arg1 out =
      (fun o => (a, b, o)) <$> scalarAddSealMatched ctx lazyMod a b out := by
  simp only [scalarAddSealCipherCipher, h, bind, Except.bind]
  cases scalarAddSealMatched ctx lazyMod a b out <;> rfl

theorem accumulate_cons_of_ok {lazyMod : Bool} {x acc x' acc' r : Ciphertext}
    (hm : matchModulusAndScaleInplace ctx x acc = .ok (x', acc'))
    (h : scalarAddSealMatched ctx lazyMod x' acc' acc' = .ok r) (xs : List Ciphertext) :
    accumulate ctx lazyMod (x :: xs) acc = accumulate ctx lazyMod xs r := by
  simp only [accumulate, List.foldlM_cons, hm, h, bind, Except.bind]

end Match

/-! ## Reading limbs -/

/-- Reading a `zipWith` at a position reads both lists there, the default being `f a b`. -/
theorem getD_zipWith {α β γ : Type} (f : α → β → γ) (a : α) (b : β) :
    ∀ {l : List α} {l' : List β}, l.length = l'.length → ∀ n : Nat,
      (List.zipWith f l l').getD n (f a b) = f (l.getD n a) (l'.getD n b)
  | [], [], _, _ => rfl
  | _ :: _, _ :: _, _, 0 => rfl
  | _ :: _, _ :: _, h, n + 1 => getD_zipWith f a b (Nat.succ.inj h) n

theorem length_getD_of_fits {cd : ContextData} {p : Poly} (hp : PolyFits cd p) (i : Nat) :
    (p.getD i []).length = if i < p.length then cd.polyModulusDegree else 0 := by
  split
  · next hi => rw [List.getD_eq_getElem _ _ hi]; exact hp.2 _ (List.getElem_mem hi)
  · next hi => rw [List.getD_eq_default _ _ (Nat.le_of_not_lt hi)]; rfl

theorem getD_addRowWrap {r s : Row} (h : r.length = s.length) (k : Nat) :
    ((addRowWrap r s).getD k 0).toNat = ((r.getD k 0).toNat + (s.getD k 0).toNat) % 2 ^ 64 :=
  (congrArg UInt64.toNat (getD_zipWith (· + ·) 0 0 h k)).trans (UInt64.toNat_add _ _)

theorem getD_addPolyWrap {cd : ContextData} {p p' : Poly} (hp : PolyFits cd p)
    (hp' : PolyFits cd p') (i : Nat) :
    (addPolyWrap p p').getD i [] = addRowWrap (p.getD i []) (p'.getD i []) :=
  getD_zipWith addRowWrap [] [] (hp.1.trans hp'.1.symm) i

theorem getD_addRowMod {q : Nat} (hq₀ : 0 < q) (hq : q < 2 ^ 64) {r s : Row}
    (h : r.length = s.length) (k : Nat) :
    ((addRowMod q r s).getD k 0).toNat = ((r.getD k 0).toNat + (s.getD k 0).toNat) % q :=
  (congrArg UInt64.toNat (getD_zipWith (fun x y : UInt64 => ((x.toNat + y.toNat) % q).toUInt64)
    0 0 h k)).trans (UInt64.toNat_ofNat_of_lt (Nat.lt_trans (Nat.mod_lt _ hq₀) hq))


theorem getD_take_of_lt {α : Type} {l : List α} {n j : Nat} (h : j < n) (d : α) :
    (l.take n).getD j d = l.getD j d := by
  simp [List.getElem?_take_of_lt h]

theorem getD_drop {α : Type} (l : List α) (n j : Nat) (d : α) :
    (l.drop n).getD j d = l.getD (n + j) d := by
  simp [List.getElem?_drop]

theorem forall_mem_zipWith {α β γ : Type} {f : α → β → γ} {P : γ → Prop} {l : List α}
    {l' : List β} (h : ∀ a ∈ l, ∀ b ∈ l', P (f a b)) : ∀ c ∈ List.zipWith f l l', P c := by
  intro c hc
  rw [← List.map_uncurry_zip_eq_zipWith] at hc
  obtain ⟨⟨a, b⟩, hab, rfl⟩ := List.mem_map.1 hc
  exact h a (List.of_mem_zip hab).1 b (List.of_mem_zip hab).2

theorem Ciphertext.limb_lt (ct : Ciphertext) (j i k : Nat) : ct.limb j i k < 2 ^ 64 :=
  UInt64.toNat_lt _

section Shaped

variable {cd : ContextData} {pid : ParmsId} {sc : UInt64} {n : Nat} {ct : Ciphertext}

theorem Ciphertext.Shaped.limb_of_le (h : ct.Shaped cd pid sc n) {j : Nat} (hj : n ≤ j)
    (i k : Nat) : ct.limb j i k = 0 := by
  rw [Ciphertext.limb, List.getD_eq_default ct.data [] (by rw [h.size_eq]; exact hj)]
  rfl

theorem Ciphertext.Shaped.fits_getD (h : ct.Shaped cd pid sc n) {j : Nat} (hj : j < n) :
    PolyFits cd (ct.data.getD j []) := by
  rw [List.getD_eq_getElem _ _ (h.size_eq ▸ hj)]
  exact h.polys_fit _ (List.getElem_mem _)

end Shaped

theorem PolyFits.length_getD_eq {cd : ContextData} {p p' : Poly} (hp : PolyFits cd p)
    (hp' : PolyFits cd p') (i : Nat) : (p.getD i []).length = (p'.getD i []).length := by
  rw [length_getD_of_fits hp, length_getD_of_fits hp', hp.1, hp'.1]

theorem PolyFits.addPolyWrap {cd : ContextData} {p p' : Poly} (hp : PolyFits cd p)
    (hp' : PolyFits cd p') : PolyFits cd (addPolyWrap p p') := by
  refine ⟨by simp [HeTransformer.addPolyWrap, hp.1, hp'.1], forall_mem_zipWith ?_⟩
  intro r hr s hs
  simp [addRowWrap, hp.2 r hr, hp'.2 s hs]

/-! ## The lazy-mod branch -/

theorem lazyAddInplace_eq {ctx : SealContext} {cd : ContextData} {arg0 out : Ciphertext}
    (hcd : ctx.contextData out.parmsId = some cd) (hn : arg0.data.length ≤ out.data.length) :
    lazyAddInplace ctx arg0 out = .ok { out with data :=
      (List.zipWith addPolyWrap (out.data.take arg0.data.length) arg0.data ++
        out.data.drop arg0.data.length) } := by
  simp [lazyAddInplace, hcd, Nat.max_eq_left hn, Nat.min_eq_right hn, resize]

/-- When `out` has at least as many polynomials as `arg0`, the lazy add keeps `out`'s shape and
adds `arg0` into it limb by limb, modulo `2^64`. -/
theorem lazyAddInplace_spec {ctx : SealContext} {cd : ContextData} {pid pid' : ParmsId}
    {sc sc' : UInt64} {n₀ n₁ : Nat} {arg0 out : Ciphertext}
    (hcd : ctx.contextData pid = some cd) (hout : out.Shaped cd pid sc n₁)
    (harg : arg0.Shaped cd pid' sc' n₀) (hn : n₀ ≤ n₁) :
    ∃ r, lazyAddInplace ctx arg0 out = .ok r ∧ r.Shaped cd pid sc n₁ ∧
      ∀ j i k, r.limb j i k = (out.limb j i k + arg0.limb j i k) % 2 ^ 64 := by
  have h₁ := hout.size_eq
  have h₀ := harg.size_eq
  have hlen : arg0.data.length ≤ out.data.length := by omega
  refine ⟨_, lazyAddInplace_eq (hout.parmsId_eq ▸ hcd) hlen,
    ⟨hout.parmsId_eq, hout.scale_eq, ?_, ?_⟩, fun j i k => ?_⟩
  · simp only [List.length_append, List.length_zipWith, List.length_take, List.length_drop]
    omega
  · intro p hp
    rcases List.mem_append.1 hp with hp | hp
    · exact forall_mem_zipWith (fun a ha b hb =>
        (hout.polys_fit a (List.mem_of_mem_take ha)).addPolyWrap (harg.polys_fit b hb)) p hp
    · exact hout.polys_fit p (List.mem_of_mem_drop hp)
  · rw [harg.size_eq]
    by_cases hj : j < n₀
    · have hp := hout.fits_getD (Nat.lt_of_lt_of_le hj hn)
      have hq := harg.fits_getD hj
      have hZ : j < (List.zipWith addPolyWrap (out.data.take n₀) arg0.data).length := by
        simp only [List.length_zipWith, List.length_take]; omega
      have hzip := calc
        (List.zipWith addPolyWrap (out.data.take n₀) arg0.data).getD j []
          = addPolyWrap ((out.data.take n₀).getD j []) (arg0.data.getD j []) :=
            getD_zipWith _ [] [] (by simp only [List.length_take]; omega) j
        _ = addPolyWrap (out.data.getD j []) (arg0.data.getD j []) := by
            rw [getD_take_of_lt hj]
      rw [Ciphertext.limb, List.getD_append _ _ _ _ hZ, hzip, getD_addPolyWrap hp hq,
        getD_addRowWrap (hp.length_getD_eq hq i)]
      rfl
    · have hZ : (List.zipWith addPolyWrap (out.data.take n₀) arg0.data).length = n₀ := by
        simp only [List.length_zipWith, List.length_take]; omega
      rw [Ciphertext.limb, List.getD_append_right _ _ _ _ (by omega), hZ, getD_drop,
        Nat.add_sub_cancel' (by omega), harg.limb_of_le (by omega), Nat.add_zero,
        Nat.mod_eq_of_lt (Ciphertext.limb_lt _ _ _ _)]
      rfl

/-! ## SEAL's addition -/

theorem getD_addPolyMod : ∀ {qs : List Nat} {p p' : Poly}, p.length = qs.length →
    p'.length = qs.length → ∀ i : Nat,
      (addPolyMod qs p p').getD i [] = addRowMod (qs.getD i 0) (p.getD i []) (p'.getD i [])
  | [], [], [], _, _, _ => rfl
  | _ :: _, _ :: _, _ :: _, _, _, 0 => rfl
  | _ :: _, _ :: _, _ :: _, h, h', i + 1 => getD_addPolyMod (Nat.succ.inj h) (Nat.succ.inj h') i
  | [], _ :: _, _, h, _, _ | [], [], _ :: _, _, h, _ => absurd h (Nat.succ_ne_zero _)
  | _ :: _, [], _, h, _, _ | _ :: _, _ :: _, [], _, h, _ => absurd h (Nat.succ_ne_zero _).symm

theorem PolyFits.addPolyMod_of_length {d : Nat} : ∀ {qs : List Nat} {p p' : Poly},
    p.length = qs.length → p'.length = qs.length → (∀ r ∈ p, r.length = d) →
    (∀ r ∈ p', r.length = d) →
    (addPolyMod qs p p').length = qs.length ∧ ∀ r ∈ addPolyMod qs p p', r.length = d
  | [], [], [], _, _, _, _ => ⟨rfl, fun _ h => absurd h (List.not_mem_nil _)⟩
  | _ :: _, r :: _, s :: _, h, h', hp, hp' =>
      have ih := addPolyMod_of_length (Nat.succ.inj h) (Nat.succ.inj h')
        (fun r hr => hp r (.tail _ hr)) (fun r hr => hp' r (.tail _ hr))
      ⟨congrArg (· + 1) ih.1, List.forall_mem_cons.2
        ⟨by rw [addRowMod, List.length_zipWith, hp r (.head _), hp' s (.head _), Nat.min_self],
          ih.2⟩⟩
  | [], _ :: _, _, h, _, _, _ | [], [], _ :: _, _, h, _, _ => absurd h (Nat.succ_ne_zero _)
  | _ :: _, [], _, h, _, _, _ | _ :: _, _ :: _, [], _, h, _, _ =>
      absurd h (Nat.succ_ne_zero _).symm

theorem PolyFits.addPolyMod {cd : ContextData} {p p' : Poly} (hp : PolyFits cd p)
    (hp' : PolyFits cd p') : PolyFits cd (HeTransformer.addPolyMod cd.coeffModulus p p') :=
  PolyFits.addPolyMod_of_length hp.1 hp'.1 hp.2 hp'.2

theorem getD_addPolysMod (qs : List Nat) : ∀ {ps ps' : List Poly}, ps.length ≤ ps'.length →
    ∀ j : Nat, (addPolysMod qs ps ps').getD j [] =
      if j < ps.length then addPolyMod qs (ps.getD j []) (ps'.getD j []) else ps'.getD j []
  | [], [], _, j | [], _ :: _, _, j => (if_neg (Nat.not_lt_zero j)).symm
  | _ :: _, _ :: _, _, 0 => (if_pos (Nat.succ_pos _)).symm
  | _ :: _, _ :: _, h, j + 1 => (getD_addPolysMod qs (Nat.le_of_succ_le_succ h) j).trans
      (ite_congr (propext Nat.succ_lt_succ_iff).symm (fun _ => rfl) (fun _ => rfl))
  | _ :: _, [], h, _ => absurd h (Nat.not_succ_le_zero _)

theorem length_addPolysMod (qs : List Nat) : ∀ {ps ps' : List Poly}, ps.length ≤ ps'.length →
    (addPolysMod qs ps ps').length = ps'.length
  | [], [], _ | [], _ :: _, _ => rfl
  | _ :: _, _ :: _, h => congrArg (· + 1) (length_addPolysMod qs (Nat.le_of_succ_le_succ h))
  | _ :: _, [], h => absurd h (Nat.not_succ_le_zero _)

/-- SEAL's addition of ciphertexts at one level and one finite scale: the result has the larger
size, and each limb is the sum modulo the row's coefficient modulus where both have the
polynomial, the second argument's limb past the first's size. -/
theorem evaluatorAdd_spec {ctx : SealContext} {cd : ContextData} {pid : ParmsId} {sc : UInt64}
    {n₀ n₁ : Nat} {a b : Ciphertext} (hcd : ctx.contextData pid = some cd)
    (hsc : doubleIsFinite sc = true) (ha : a.Shaped cd pid sc n₀) (hb : b.Shaped cd pid sc n₁)
    (hn : n₀ ≤ n₁) :
    ∃ e, evaluatorAdd ctx a b = .ok e ∧ e.Shaped cd pid sc n₁ ∧
      ∀ (j i k q : Nat), cd.coeffModulus[i]? = some q →
        e.limb j i k = if j < n₀ then (a.limb j i k + b.limb j i k) % q else b.limb j i k := by
  have h₀ := ha.size_eq
  have h₁ := hb.size_eq
  have hlen : a.data.length ≤ b.data.length := by omega
  refine ⟨{ a with data := addPolysMod cd.coeffModulus a.data b.data },
    by simp [evaluatorAdd, ha.parmsId_eq, hb.parmsId_eq, hcd, ha.scale_eq, hb.scale_eq,
      areClose_self, hsc],
    ⟨ha.parmsId_eq, ha.scale_eq, by rw [length_addPolysMod _ hlen, h₁], ?_⟩, ?_⟩
  · intro p hp
    obtain ⟨j, hj, rfl⟩ := List.mem_iff_getElem.1 hp
    rw [← List.getD_eq_getElem _ [], getD_addPolysMod _ hlen]
    rw [length_addPolysMod _ hlen] at hj
    split
    · next hj₀ => exact (ha.fits_getD (h₀ ▸ hj₀)).addPolyMod (hb.fits_getD (h₁ ▸ hj))
    · exact hb.fits_getD (h₁ ▸ hj)
  · intro j i k q hq
    have hq' := cd.modulus_valid q (List.mem_iff_getElem?.2 ⟨i, hq⟩)
    rw [Ciphertext.limb, getD_addPolysMod _ hlen, h₀]
    split
    · next hj =>
        have hp := ha.fits_getD hj
        have hp' := hb.fits_getD (Nat.lt_of_lt_of_le hj hn)
        rw [getD_addPolyMod hp.1 hp'.1, List.getD_eq_getElem?_getD cd.coeffModulus i 0, hq,
          Option.getD_some,
          getD_addRowMod (by omega) (by omega) (hp.length_getD_eq hp' i)]
        rfl
    · rfl

end HeTransformer
