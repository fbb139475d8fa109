import HeTransformer.Seal.Kernel.AddTensor

/-!
# What lazy modular reduction computes

The inline add of the lazy-mod branch is `add_inplace(out, arg0)` without the reduction: it
agrees with `Evaluator::add(arg0, arg1, out)` when `out` is `arg1` itself, up to congruence
modulo each row's coefficient modulus, as long as no limb sum reaches `2^64`. A fresh `out` has
SEAL's zero `parms_id`, whose context data is null: the inline branch dereferences it where
`Evaluator::add` returns the sum (`fresh_output_lazy_add_undefined`).

Accumulating `scalar_add_seal(x, acc, acc)` over `x₁ … x_k` at one level and one finite scale
keeps, in every limb, the exact sum modulo `2^64`; SEAL's addition keeps it modulo the row's
modulus `q`. While `(k + 1) * (q - 1) < 2^64` the two agree modulo `q`. From there on, limbs
whose sum is exactly `2^64` wrap to 0, and since `q` is odd the two disagree. At an infinite
scale SEAL's addition throws, since `are_close` finds such a scale close to nothing, while the
inline branch checks no scale.
-/

namespace HeTransformer

section Accumulate

variable {ctx : SealContext} {cd : ContextData} {pid : ParmsId} {sc : UInt64} {n : Nat}

theorem match_shaped (hcd : ctx.contextData pid = some cd) (hnan : doubleIsNaN sc = false)
    {x acc : Ciphertext} (hx : x.Shaped cd pid sc n) (hacc : acc.Shaped cd pid sc n) :
    matchModulusAndScaleInplace ctx x acc = .ok (x, acc) :=
  matchModulusAndScaleInplace_same hcd hx.parmsId_eq hacc.parmsId_eq
    (hx.scale_eq.trans hacc.scale_eq.symm) (hx.scale_eq ▸ hnan)

/-- The lazy accumulation keeps the shape, and each limb is the sum of all addends modulo
`2^64`. -/
theorem accumulate_lazy_spec (hcd : ctx.contextData pid = some cd)
    (hnan : doubleIsNaN sc = false) :
    ∀ (xs : List Ciphertext) (acc : Ciphertext), acc.Shaped cd pid sc n →
      (∀ x ∈ xs, x.Shaped cd pid sc n) →
      ∃ r, accumulate ctx true xs acc = .ok r ∧ r.Shaped cd pid sc n ∧
        ∀ j i k, r.limb j i k = (acc.limb j i k + (xs.map (·.limb j i k)).sum) % 2 ^ 64
  | [], acc, hacc, _ =>
      ⟨acc, rfl, hacc, fun j i k => by
        rw [List.map_nil, List.sum_nil, Nat.add_zero, Nat.mod_eq_of_lt (acc.limb_lt j i k)]⟩
  | x :: xs, acc, hacc, hxs => by
      have hx := hxs x (.head _)
      obtain ⟨r₁, h₁, hs₁, hl₁⟩ := lazyAddInplace_spec hcd hacc hx (Nat.le_refl n)
      obtain ⟨r, h, hs, hl⟩ :=
        accumulate_lazy_spec hcd hnan xs r₁ hs₁ (fun y hy => hxs y (.tail _ hy))
      have h₁ : scalarAddSealMatched ctx true x acc acc = .ok r₁ := h₁
      refine ⟨r, (accumulate_cons_of_ok (match_shaped hcd hnan hx hacc) h₁ xs).trans h, hs,
        fun j i k => ?_⟩
      rw [hl, hl₁, List.map_cons, List.sum_cons, Nat.mod_add_mod, Nat.add_assoc]

/-- SEAL's accumulation at a finite scale keeps the shape, and each limb is congruent to the sum
of all addends modulo its row's coefficient modulus. -/
theorem accumulate_eager_spec (hcd : ctx.contextData pid = some cd)
    (hsc : doubleIsFinite sc = true) :
    ∀ (xs : List Ciphertext) (acc : Ciphertext), acc.Shaped cd pid sc n →
      (∀ x ∈ xs, x.Shaped cd pid sc n) →
      ∃ e, accumulate ctx false xs acc = .ok e ∧ e.Shaped cd pid sc n ∧
        ∀ (j i k q : Nat), cd.coeffModulus[i]? = some q →
          e.limb j i k % q = (acc.limb j i k + (xs.map (·.limb j i k)).sum) % q
  | [], acc, hacc, _ => ⟨acc, rfl, hacc, fun j i k q _ => by simp⟩
  | x :: xs, acc, hacc, hxs => by
      have hx := hxs x (.head _)
      obtain ⟨e₁, h₁, hs₁, hl₁⟩ := evaluatorAdd_spec hcd hsc hx hacc (Nat.le_refl n)
      obtain ⟨e, h, hs, hl⟩ :=
        accumulate_eager_spec hcd hsc xs e₁ hs₁ (fun y hy => hxs y (.tail _ hy))
      have h₁ : scalarAddSealMatched ctx false x acc acc = .ok e₁ := h₁
      refine ⟨e, (accumulate_cons_of_ok (match_shaped hcd (not_doubleIsNaN_of_finite hsc) hx hacc)
        h₁ xs).trans h, hs, fun j i k q hq => ?_⟩
      rw [hl j i k q hq, hl₁ j i k q hq, List.map_cons, List.sum_cons]
      split
      · rw [Nat.mod_add_mod, Nat.add_comm (x.limb j i k), Nat.add_assoc]
      · next hj => rw [hx.limb_of_le (Nat.le_of_not_lt hj), Nat.zero_add]

end Accumulate

/-! ## One ciphertext that is zero but for one limb -/

/-- A ciphertext of two polynomials, the size of a fresh encryption, whose limbs are all 0 but
limb 0 of row `i` of the first polynomial, which is `v`. -/
def limbCiphertext (cd : ContextData) (pid : ParmsId) (sc : UInt64) (i v : Nat) : Ciphertext :=
  ⟨pid, sc, [(List.range cd.coeffModulus.length).map (fun i' =>
    if i' = i then v.toUInt64 :: List.replicate (cd.polyModulusDegree - 1) 0
    else List.replicate cd.polyModulusDegree 0), zeroPoly cd]⟩

theorem PolyFits.zeroPoly (cd : ContextData) : PolyFits cd (zeroPoly cd) :=
  ⟨List.length_replicate _ _, fun _ hr => (List.eq_of_mem_replicate hr).symm ▸
    List.length_replicate _ _⟩

theorem limbCiphertext_shaped (cd : ContextData) (pid : ParmsId) (sc : UInt64) (i v : Nat) :
    (limbCiphertext cd pid sc i v).Shaped cd pid sc 2 := by
  refine ⟨rfl, rfl, rfl, ?_⟩
  have := cd.degree_pos
  simp only [limbCiphertext, List.mem_cons, List.mem_singleton, forall_eq_or_imp, forall_eq,
    List.not_mem_nil, or_false]
  refine ⟨⟨by simp, ?_⟩, PolyFits.zeroPoly cd⟩
  simp only [List.mem_map, List.mem_range, true_and]
  rintro r ⟨i', -, rfl⟩
  split <;> simp only [List.length_cons, List.length_replicate]
  omega

theorem toNat_toUInt64 (v : Nat) : v.toUInt64.toNat = v % 2 ^ 64 := rfl

theorem limbCiphertext_limb (cd : ContextData) (pid : ParmsId) (sc : UInt64) (i v j i' k : Nat) :
    (limbCiphertext cd pid sc i v).limb j i' k =
      if j = 0 ∧ i' = i ∧ i < cd.coeffModulus.length ∧ k = 0 then v % 2 ^ 64 else 0 := by
  rcases j with _ | _ | j
  · -- the first polynomial
    simp only [Ciphertext.limb, limbCiphertext, List.getD_eq_getElem?_getD,
      List.getElem?_cons_zero, Option.getD_some, List.getElem?_map]
    by_cases hi : i' < cd.coeffModulus.length
    · rw [List.getElem?_range hi]
      by_cases h : i' = i
      · subst h
        rcases k with _ | k <;> simp [hi, toNat_toUInt64]
      · simp [h]
    · have hnone : (List.range cd.coeffModulus.length)[i']? = none :=
        List.getElem?_eq_none (by simpa using Nat.le_of_not_lt hi)
      rw [hnone, if_neg (by omega)]
      rfl
  · -- the zero polynomial
    simp [Ciphertext.limb, limbCiphertext, zeroPoly, List.getD_eq_getElem?_getD,
      List.getElem?_replicate]
    split <;> simp
  · simp [Ciphertext.limb, limbCiphertext]

theorem limbCiphertext_reduced {cd : ContextData} {pid : ParmsId} {sc : UInt64} {i v q : Nat}
    (hq : cd.coeffModulus[i]? = some q) (hv : v < q) :
    (limbCiphertext cd pid sc i v).Reduced cd := by
  intro j i' k q' hq'
  have h' := (cd.modulus_valid q' (List.mem_iff_getElem?.2 ⟨i', hq'⟩)).2.1
  rw [limbCiphertext_limb]
  split
  · next h =>
      obtain ⟨-, rfl, -, -⟩ := h
      rw [hq] at hq'
      cases hq'
      exact Nat.lt_of_le_of_lt (Nat.mod_le _ _) hv
  · omega

/-! ## A sample level -/

/-- A level of one coefficient modulus, 3, and polynomial degree 2. -/
def demoLevel : ContextData := ⟨[3], 2, by decide, by decide⟩

/-- A context whose every level is `demoLevel`, with a drift ratio of 2 and a rescale that
raises; SEAL's zero `parms_id` has no context data. -/
def demoContext : SealContext :=
  ⟨fun | .zero => none | .level _ => some demoLevel, rfl,
    fun _ => .error (.invalidArgument "end of modulus switching chain reached"), 2⟩

/-- The bits of the `double` `2^30`, the default scale. -/
def demoScale : UInt64 := 0x41D0000000000000

/-! ## The lazy add against SEAL's -/

/-- With `out` aliasing `arg1`, `arg0` no larger than `arg1`, and the two at one level and one
finite scale, the lazy-mod branch gives a ciphertext of the size, `parms_id` and scale SEAL's
addition gives, whose limbs are congruent to SEAL's modulo the row's coefficient modulus. -/
theorem lazy_add_aliased_output_congruent {ctx : SealContext} {cd : ContextData} {pid : ParmsId}
    {sc : UInt64} {n₀ n₁ : Nat} {arg0 arg1 : Ciphertext} (hcd : ctx.contextData pid = some cd)
    (hsc : doubleIsFinite sc = true) (h0 : arg0.Shaped cd pid sc n₀)
    (h1 : arg1.Shaped cd pid sc n₁) (hr0 : arg0.Reduced cd) (hr1 : arg1.Reduced cd)
    (hn : n₀ ≤ n₁) :
    ∃ r e, scalarAddSealMatched ctx true arg0 arg1 arg1 = .ok r ∧
      scalarAddSealMatched ctx false arg0 arg1 arg1 = .ok e ∧
      r.data.length = e.data.length ∧ r.parmsId = e.parmsId ∧ r.scale = e.scale ∧
      ∀ (j i k q : Nat), cd.coeffModulus[i]? = some q → r.limb j i k % q = e.limb j i k % q := by
  obtain ⟨r, hr, hrs, hrl⟩ := lazyAddInplace_spec hcd h1 h0 hn
  obtain ⟨e, he, hes, hel⟩ := evaluatorAdd_spec hcd hsc h0 h1 hn
  refine ⟨r, e, hr, he, by rw [hrs.size_eq, hes.size_eq], by rw [hrs.parmsId_eq, hes.parmsId_eq],
    by rw [hrs.scale_eq, hes.scale_eq], fun j i k q hq => ?_⟩
  have hq' := (cd.modulus_valid q (List.mem_iff_getElem?.2 ⟨i, hq⟩)).2.2
  have hlt := hr0 j i k q hq
  have hlt' := hr1 j i k q hq
  rw [hrl, Nat.mod_eq_of_lt (show arg1.limb j i k + arg0.limb j i k < 2 ^ 64 by omega),
    hel j i k q hq]
  split
  · rw [Nat.mod_mod, Nat.add_comm]
  · next hj => rw [h0.limb_of_le (Nat.le_of_not_lt hj), Nat.add_zero]

/-- **A fresh output under lazy mod.** `add_wrong_output_type` adds a ciphertext slot to itself
into a plaintext slot, which `scalar_add_seal` replaces with `create_empty_ciphertext()`, at
SEAL's zero `parms_id`. With `lazy_mod()` on, the inline branch dereferences the null context
data of that `parms_id`. With it off, the same call leaves the argument as it was and returns
SEAL's sum, limb by limb `c + c` modulo the row's coefficient modulus. -/
theorem fresh_output_lazy_add_undefined {ctx : SealContext} {cd : ContextData} {pid : ParmsId}
    {sc : UInt64} {n : Nat} {c : Ciphertext} (hcd : ctx.contextData pid = some cd)
    (hsc : doubleIsFinite sc = true) (hc : c.Shaped cd pid sc n)
    (addPlainSeal : Ciphertext → HEPlaintext → Bool → Except Fault Ciphertext) (p : Bool)
    (v : HEPlaintext) :
    scalarAddSealHEType ctx addPlainSeal ⟨true⟩ ⟨.ciphertext c, p⟩ ⟨.ciphertext c, p⟩
        (.ofPlain v p) = .error (.undefined "*get_context_data(out.parms_id()) is null") ∧
    ∃ e, scalarAddSealHEType ctx addPlainSeal ⟨false⟩ ⟨.ciphertext c, p⟩ ⟨.ciphertext c, p⟩
        (.ofPlain v p) = .ok (⟨.ciphertext c, p⟩, ⟨.ciphertext c, p⟩, ⟨.ciphertext e, p⟩) ∧
      e.Shaped cd pid sc n ∧ ∀ (j i k q : Nat), cd.coeffModulus[i]? = some q →
        e.limb j i k = (c.limb j i k + c.limb j i k) % q := by
  have hm := match_shaped hcd (not_doubleIsNaN_of_finite hsc) hc hc
  obtain ⟨e, he, hes, hel⟩ := evaluatorAdd_spec hcd hsc hc hc (Nat.le_refl n)
  have hlazy : lazyAddInplace ctx c Ciphertext.empty =
      .error (.undefined "*get_context_data(out.parms_id()) is null") := by
    simp only [lazyAddInplace, Ciphertext.empty, ctx.zero_none]
  refine ⟨?_, e, ?_, hes, fun j i k q hq => ?_⟩
  · rw [scalarAddSealHEType_ciphertexts, scalarAddSealCipherCipher_of_match hm,
      scalarAddSealMatched_true]
    simp only [HEType.ofPlain, hlazy]
    rfl
  · rw [scalarAddSealHEType_ciphertexts, scalarAddSealCipherCipher_of_match hm,
      scalarAddSealMatched_false, he]
    rfl
  · rw [hel j i k q hq]
    split
    · rfl
    · next hj => rw [hc.limb_of_le (Nat.le_of_not_lt hj), Nat.add_zero, Nat.zero_mod]

/-- `add_wrong_output_type`'s cipher+cipher case with `LAZY_MOD=true`: a slot holding 1 in its
first limb, added to itself into a plaintext slot. Without lazy mod the sum holds 2 there. -/
theorem add_wrong_output_type_lazy_dereferences_null :
    scalarAddSealHEType demoContext (fun c _ _ => .ok c) ⟨true⟩
        ⟨.ciphertext (limbCiphertext demoLevel (.level 0) demoScale 0 1), false⟩
        ⟨.ciphertext (limbCiphertext demoLevel (.level 0) demoScale 0 1), false⟩
        (.ofPlain [] false) = .error (.undefined "*get_context_data(out.parms_id()) is null") ∧
    ∃ e, scalarAddSealHEType demoContext (fun c _ _ => .ok c) ⟨false⟩
        ⟨.ciphertext (limbCiphertext demoLevel (.level 0) demoScale 0 1), false⟩
        ⟨.ciphertext (limbCiphertext demoLevel (.level 0) demoScale 0 1), false⟩
        (.ofPlain [] false) =
          .ok (⟨.ciphertext (limbCiphertext demoLevel (.level 0) demoScale 0 1), false⟩,
            ⟨.ciphertext (limbCiphertext demoLevel (.level 0) demoScale 0 1), false⟩,
            ⟨.ciphertext e, false⟩) ∧ e.limb 0 0 0 = 2 :=
  let ⟨hlazy, e, he, _, hl⟩ := @fresh_output_lazy_add_undefined demoContext demoLevel (.level 0)
    demoScale 2 _ rfl rfl (limbCiphertext_shaped demoLevel (.level 0) demoScale 0 1)
    (fun c _ _ => .ok c) false []
  ⟨hlazy, e, he, (hl 0 0 0 3 rfl).trans rfl⟩

/-! ## Accumulating without reduction -/

/-- With every limb below `q`, the `k + 1` limbs sum to at most `(k + 1) * (q - 1)`. -/
theorem limb_sum_le {q j i k : Nat} {xs : List Ciphertext} {acc : Ciphertext}
    (hacc : acc.limb j i k < q) (hxs : ∀ x ∈ xs, x.limb j i k < q) :
    acc.limb j i k + (xs.map (·.limb j i k)).sum ≤ (xs.length + 1) * (q - 1) := by
  have hsum := List.sum_le_card_nsmul (xs.map (·.limb j i k)) (q - 1) fun y hy => by
    obtain ⟨x, hx, rfl⟩ := List.mem_map.1 hy
    exact Nat.le_sub_one_of_lt (hxs x hx)
  rw [List.length_map] at hsum
  change _ ≤ xs.length * (q - 1) at hsum
  rw [Nat.succ_mul]
  omega

/-- Limb values that fill `2^64`: `q - 1` as long as it fits, then what is left, then 0. -/
def wrapValue (q t : Nat) : Nat := min (q - 1) (2 ^ 64 - t * (q - 1))

/-- `k` addends whose limb 0 of row `i` are `wrapValue q 1, …, wrapValue q k`; with an
accumulator of limb `wrapValue q 0` they fill `2^64` once `2^64 ≤ (k + 1) * (q - 1)`. -/
def wrapAddends (cd : ContextData) (pid : ParmsId) (sc : UInt64) (i q k : Nat) :
    List Ciphertext :=
  (List.range k).map fun t => limbCiphertext cd pid sc i (wrapValue q (t + 1))

theorem wrapValue_lt {q : Nat} (hq : 0 < q) (t : Nat) : wrapValue q t < q :=
  Nat.lt_of_le_of_lt (Nat.min_le_left _ _) (Nat.sub_lt hq Nat.one_pos)

theorem sum_wrapValue (q : Nat) : ∀ m : Nat,
    wrapValue q 0 + ((List.range m).map fun t => wrapValue q (t + 1)).sum =
      min (2 ^ 64) ((m + 1) * (q - 1))
  | 0 => by
      rw [List.range_zero, List.map_nil, List.sum_nil, Nat.add_zero, wrapValue, Nat.zero_mul,
        Nat.sub_zero, Nat.zero_add, Nat.one_mul]
      exact Nat.min_comm _ _
  | m + 1 => by
      rw [List.range_succ, List.map_append, List.sum_append, ← Nat.add_assoc, sum_wrapValue q m,
        List.map_singleton, List.sum_singleton, wrapValue, Nat.succ_mul (m + 1)]
      omega

theorem mem_wrapAddends {cd : ContextData} {pid : ParmsId} {sc : UInt64} {i q k : Nat}
    {x : Ciphertext} (hx : x ∈ wrapAddends cd pid sc i q k) :
    ∃ t, x = limbCiphertext cd pid sc i (wrapValue q (t + 1)) := by
  obtain ⟨t, -, rfl⟩ := List.mem_map.1 hx
  exact ⟨t, rfl⟩

/-- The accumulator and the addends of the construction sum, at limb 0 of row `i`, to
`min (2^64) ((k + 1) * (q - 1))`. -/
theorem limb_sum_wrapAddends {cd : ContextData} (pid : ParmsId) (sc : UInt64) {i q : Nat}
    (hi : i < cd.coeffModulus.length) (hq : 0 < q) (hq' : q < 2 ^ 64) (k : Nat) :
    (limbCiphertext cd pid sc i (wrapValue q 0)).limb 0 i 0 +
        ((wrapAddends cd pid sc i q k).map (·.limb 0 i 0)).sum =
      min (2 ^ 64) ((k + 1) * (q - 1)) := by
  have hlimb : ∀ t, (limbCiphertext cd pid sc i (wrapValue q t)).limb 0 i 0 = wrapValue q t :=
    fun t => by
      rw [limbCiphertext_limb, if_pos ⟨rfl, rfl, hi, rfl⟩,
        Nat.mod_eq_of_lt (Nat.lt_trans (wrapValue_lt hq t) hq')]
  simp only [wrapAddends, List.map_map, Function.comp_def, hlimb]
  exact sum_wrapValue q k

theorem two_pow_mod_ne_zero {q : Nat} (hodd : q % 2 = 1) (hq : 1 < q) : 2 ^ 64 % q ≠ 0 := by
  intro h
  have hc : Nat.Coprime q 2 := by rw [Nat.Coprime, Nat.gcd_comm, Nat.gcd_rec, hodd]; rfl
  exact absurd ((hc.pow_right 64).eq_one_of_dvd (Nat.dvd_of_mod_eq_zero h)) (by omega)

/-- Accumulating `x₁ … x_k` into `acc` with the lazy-mod `scalar_add_seal(x, acc, acc)`, at a
row of modulus `q` and a finite scale: while `(k + 1) * (q - 1) < 2^64`, each limb of the row is
the exact sum of the `k + 1` limbs, and so congruent modulo `q` to SEAL's accumulation; for
every larger `k`, some ciphertexts of two polynomials make the limb sum wrap and the two
disagree modulo `q`. -/
theorem lazy_accumulate_exact_until_wrap {ctx : SealContext} {cd : ContextData} {pid : ParmsId}
    {sc : UInt64} {i q : Nat} (hcd : ctx.contextData pid = some cd)
    (hq : cd.coeffModulus[i]? = some q) (hsc : doubleIsFinite sc = true) :
    (∀ (n : Nat) (xs : List Ciphertext) (acc : Ciphertext), acc.Shaped cd pid sc n →
      (∀ x ∈ xs, x.Shaped cd pid sc n) → (∀ j k, acc.limb j i k < q) →
      (∀ x ∈ xs, ∀ j k, x.limb j i k < q) → (xs.length + 1) * (q - 1) < 2 ^ 64 →
      ∃ r e, accumulate ctx true xs acc = .ok r ∧ accumulate ctx false xs acc = .ok e ∧
        ∀ j k, r.limb j i k = acc.limb j i k + (xs.map (·.limb j i k)).sum ∧
          r.limb j i k % q = e.limb j i k % q) ∧
    (∀ k : Nat, 2 ^ 64 ≤ (k + 1) * (q - 1) →
      ∃ (xs : List Ciphertext) (acc : Ciphertext), xs.length = k ∧ acc.Shaped cd pid sc 2 ∧
        (∀ x ∈ xs, x.Shaped cd pid sc 2) ∧ acc.Reduced cd ∧ (∀ x ∈ xs, x.Reduced cd) ∧
        ∃ r e, accumulate ctx true xs acc = .ok r ∧ accumulate ctx false xs acc = .ok e ∧
          2 ^ 64 ≤ acc.limb 0 i 0 + (xs.map (·.limb 0 i 0)).sum ∧
          r.limb 0 i 0 = (acc.limb 0 i 0 + (xs.map (·.limb 0 i 0)).sum) % 2 ^ 64 ∧
          r.limb 0 i 0 % q ≠ e.limb 0 i 0 % q) := by
  have hqv := cd.modulus_valid q (List.mem_iff_getElem?.2 ⟨i, hq⟩)
  have hnan := not_doubleIsNaN_of_finite hsc
  constructor
  · intro n xs acc hacc hxs hacc_lt hxs_lt hbound
    obtain ⟨r, hr, -, hrl⟩ := accumulate_lazy_spec hcd hnan xs acc hacc hxs
    obtain ⟨e, he, -, hel⟩ := accumulate_eager_spec hcd hsc xs acc hacc hxs
    refine ⟨r, e, hr, he, fun j k => ?_⟩
    have hexact : r.limb j i k = acc.limb j i k + (xs.map (·.limb j i k)).sum := by
      rw [hrl, Nat.mod_eq_of_lt (Nat.lt_of_le_of_lt
        (limb_sum_le (hacc_lt j k) fun x hx => hxs_lt x hx j k) hbound)]
    exact ⟨hexact, by rw [hexact, hel j i k q hq]⟩
  · intro k hk
    have hq₀ : 0 < q := by omega
    have hxs : ∀ x ∈ wrapAddends cd pid sc i q k, x.Shaped cd pid sc 2 := fun x hx => by
      obtain ⟨t, rfl⟩ := mem_wrapAddends hx
      exact limbCiphertext_shaped _ _ _ _ _
    have hsum := (limb_sum_wrapAddends pid sc (List.getElem?_eq_some_iff.1 hq).1 hq₀ (by omega)
      k).trans (Nat.min_eq_left hk)
    obtain ⟨r, hr, -, hrl⟩ :=
      accumulate_lazy_spec hcd hnan _ _ (limbCiphertext_shaped _ _ _ _ _) hxs
    obtain ⟨e, he, -, hel⟩ :=
      accumulate_eager_spec hcd hsc _ _ (limbCiphertext_shaped _ _ _ _ _) hxs
    refine ⟨_, _, by simp [wrapAddends], limbCiphertext_shaped _ _ _ _ _, hxs,
      limbCiphertext_reduced hq (wrapValue_lt hq₀ 0), fun x hx => ?_, r, e, hr, he, hsum.ge,
      hrl 0 i 0, ?_⟩
    · obtain ⟨t, rfl⟩ := mem_wrapAddends hx
      exact limbCiphertext_reduced hq (wrapValue_lt hq₀ (t + 1))
    · rw [hrl, hsum, hel 0 i 0 q hq, hsum, Nat.mod_self, Nat.zero_mod]
      exact (two_pow_mod_ne_zero hqv.1 hqv.2.1).symm

/-- At `demoLevel` and the scale `2^30`, `2^63` addends of limb 2 with an accumulator of limb 2
make the limb sum `2^64`, which the lazy accumulation wraps to 0. -/
theorem lazy_demo_accumulate_wraps :
    ∃ (xs : List Ciphertext) (acc : Ciphertext), xs.length = 2 ^ 63 ∧
      acc.Shaped demoLevel (.level 0) demoScale 2 ∧
      ∃ r e, accumulate demoContext true xs acc = .ok r ∧
        accumulate demoContext false xs acc = .ok e ∧ r.limb 0 0 0 % 3 ≠ e.limb 0 0 0 % 3 :=
  let ⟨xs, acc, hl, hs, _, _, _, r, e, hr, he, _, _, hne⟩ :=
    (@lazy_accumulate_exact_until_wrap demoContext demoLevel (.level 0) demoScale 0 3 rfl rfl
      rfl).2 (2 ^ 63) (by decide)
  ⟨xs, acc, hl, hs, r, e, hr, he, hne⟩

/-- At the scale `+∞`, whose bits are `0x7FF0000000000000`, one addend: the lazy accumulation
returns the exact sum, 2, and SEAL's throws `scale mismatch`, since `are_close` finds an
infinite scale close to nothing, itself included. -/
theorem infinite_scale_eager_accumulate_raises :
    (∃ r, accumulate demoContext true
        [limbCiphertext demoLevel (.level 0) 0x7FF0000000000000 0 1]
        (limbCiphertext demoLevel (.level 0) 0x7FF0000000000000 0 1) = .ok r ∧
      r.limb 0 0 0 = 2) ∧
    accumulate demoContext false [limbCiphertext demoLevel (.level 0) 0x7FF0000000000000 0 1]
        (limbCiphertext demoLevel (.level 0) 0x7FF0000000000000 0 1) =
      .error (.invalidArgument "scale mismatch") :=
  ⟨⟨_, rfl, rfl⟩, rfl⟩

end HeTransformer
