import HeTransformer.Seal.Kernel.AddTensor
import HeTransformer.Seal.Kernel.LazyMod

/-!
# `lazy_mod()` around the `Add` and `Multiply` cases of `generate_calls`

`m_lazy_mod` belongs to the backend and outlives every call. For a single `Add` or `Multiply`
node, `generate_calls` clears it, runs the kernel, and sets it again; nothing restores it when
the kernel raises, since the assignment after the kernel is then skipped. Kernels run in
`EStateM Fault HESealBackend`, so that a raise keeps the backend as the raise found it, as a C++
exception does.

`multiply_seal` and `rescale_seal` are not among the sources and are parameters; `add_seal` is
the model of its own module. When the `Add` node returns, it has added every pair of ciphertext
slots with SEAL's `Evaluator::add`, after matching them in place
(`generate_calls_add_slots_use_evaluator_add`).
-/

namespace HeTransformer

/-! ## The guard around a single `Add` or `Multiply` -/

/-- The `Add` and `Multiply` cases of `generate_calls`: with `lazy_mod()` on, clear it, run the
kernel, and set it again; with it off, run the kernel. -/
def avoidLazyMod {α : Type} (kernel : BackendM α) : BackendM α := do
  if (← get).lazyMod then
    modify fun b => { b with lazyMod := false }
    let r ← kernel
    modify fun b => { b with lazyMod := true }
    pure r
  else kernel

/-- The `Add` case of `generate_calls`: `add_seal` under the guard, on the data of `args[0]`,
`args[1]` and `out[0]`, which it leaves as the three tensors it returns. -/
def generateCallsAdd (ctx : SealContext)
    (addPlainSeal : Ciphertext → HEPlaintext → Bool → Except Fault Ciphertext)
    (arg0 arg1 out : List HEType) (count : Nat) (elementType : ElementType) :
    BackendM AddTensors :=
  avoidLazyMod (addSeal ctx addPlainSeal arg0 arg1 out count elementType)

/-- The `Multiply` case of `generate_calls`: `multiply_seal` under the guard, then
`rescale_seal` on the output. -/
def generateCallsMultiply
    (multiplySeal : List HEType → List HEType → List HEType → Nat → ElementType →
      BackendM (List HEType))
    (rescaleSeal : List HEType → BackendM (List HEType))
    (arg0 arg1 out : List HEType) (count : Nat) (elementType : ElementType) :
    BackendM (List HEType) := do
  let out ← avoidLazyMod (multiplySeal arg0 arg1 out count elementType)
  rescaleSeal out

/-- The guard runs the kernel with `lazy_mod()` off; it sets the flag again only when the kernel
returns. -/
theorem avoidLazyMod_run {α : Type} (kernel : BackendM α) (b : HESealBackend) :
    (avoidLazyMod kernel).run b =
      if b.lazyMod then
        match kernel.run { b with lazyMod := false } with
        | .ok a b' => .ok a { b' with lazyMod := true }
        | .error e b' => .error e b'
      else kernel.run b := by
  cases b with
  | mk lazyMod =>
      cases lazyMod
      · rfl
      · simp only [avoidLazyMod, EStateM.run, bind, EStateM.bind, get, getThe, MonadStateOf.get,
          EStateM.get, modify, modifyGet, MonadStateOf.modifyGet, EStateM.modifyGet, if_true]
        cases kernel { lazyMod := false } <;> rfl

section Guard

variable {α : Type} {kernel : BackendM α} {b b' : HESealBackend}

/-- When the kernel returns, the guard leaves `lazy_mod()` as it was before. -/
theorem avoidLazyMod_return (hk : KeepsLazyMod kernel) {a : α}
    (h : (avoidLazyMod kernel).run b = .ok a b') : b'.lazyMod = b.lazyMod := by
  rw [avoidLazyMod_run] at h
  split at h
  · next hb =>
      split at h
      · cases h
        exact hb.symm
      · cases h
  · have := hk b
    rw [h] at this
    exact this

/-- When the kernel raises with `lazy_mod()` on before, the guard leaves it off. -/
theorem avoidLazyMod_raise (hk : KeepsLazyMod kernel) (hb : b.lazyMod = true) {e : Fault}
    (h : (avoidLazyMod kernel).run b = .error e b') : b'.lazyMod = false := by
  rw [avoidLazyMod_run, if_pos hb] at h
  split at h
  · cases h
  · next b'' heq =>
      cases h
      have := hk { b with lazyMod := false }
      rw [heq] at this
      exact this

/-- When the guard returns, the kernel returned from a backend with `lazy_mod()` off. -/
theorem avoidLazyMod_ok {a : α} (h : (avoidLazyMod kernel).run b = .ok a b') :
    ∃ b₀ b₁, b₀.lazyMod = false ∧ kernel.run b₀ = .ok a b₁ := by
  rw [avoidLazyMod_run] at h
  split at h
  · split at h
    · next b₁ hk => cases h; exact ⟨_, b₁, rfl, hk⟩
    · cases h
  · next hb => exact ⟨b, b', Bool.eq_false_iff.2 hb, h⟩

end Guard

/-! ## A raise inside the guard -/

/-- With `lazy_mod()` on, a raise of `add_seal` in an `Add` node, or of the kernel of a
`Multiply` node, leaves `lazy_mod()` off: the assignment that sets it again is skipped. -/
theorem generate_calls_raise_leaves_lazy_mod_cleared :
    (∀ (ctx : SealContext)
      (addPlainSeal : Ciphertext → HEPlaintext → Bool → Except Fault Ciphertext)
      (arg0 arg1 out : List HEType) (count : Nat) (elementType : ElementType) (e : Fault)
      (b' : HESealBackend),
      (generateCallsAdd ctx addPlainSeal arg0 arg1 out count elementType).run ⟨true⟩ =
        .error e b' → b'.lazyMod = false) ∧
    (∀ (multiplySeal : List HEType → List HEType → List HEType → Nat → ElementType →
        BackendM (List HEType)) (rescaleSeal : List HEType → BackendM (List HEType))
      (arg0 arg1 out : List HEType) (count : Nat) (elementType : ElementType) (e : Fault)
      (b' : HESealBackend),
      KeepsLazyMod (multiplySeal arg0 arg1 out count elementType) →
      (multiplySeal arg0 arg1 out count elementType).run ⟨false⟩ = .error e b' →
      (generateCallsMultiply multiplySeal rescaleSeal arg0 arg1 out count elementType).run
          ⟨true⟩ = .error e b' ∧ b'.lazyMod = false) := by
  refine ⟨fun ctx addPlainSeal arg0 arg1 out count elementType e b' h =>
    avoidLazyMod_raise (addSeal_keepsLazyMod _ _ _ _ _ _ _) rfl h, ?_⟩
  intro multiplySeal rescaleSeal arg0 arg1 out count elementType e b' hk h
  have hg : (avoidLazyMod (multiplySeal arg0 arg1 out count elementType)).run ⟨true⟩ =
      .error e b' := by
    rw [avoidLazyMod_run, if_pos rfl, h]
  refine ⟨?_, avoidLazyMod_raise hk rfl hg⟩
  simp only [EStateM.run] at hg
  simp only [generateCallsMultiply, EStateM.run, bind, EStateM.bind, hg]

/-- An `Add` node of element type `boolean`, and a `Multiply` node whose kernel makes the same
check and returns the output of `add_seal`, with `lazy_mod()` on. -/
theorem generate_calls_unsupported_type_clears_lazy_mod :
    (generateCallsAdd demoContext (fun c _ _ => .ok c) [] [] [] 1 .boolean).run ⟨true⟩ =
        .error (.check "Unsupported type boolean") ⟨false⟩ ∧
      (generateCallsMultiply
          (fun a0 a1 o n t => (·.2.2) <$> addSeal demoContext (fun c _ _ => .ok c) a0 a1 o n t)
          (fun out => pure out) [] [] [] 1 .boolean).run ⟨true⟩ =
        .error (.check "Unsupported type boolean") ⟨false⟩ :=
  ⟨rfl, (generate_calls_raise_leaves_lazy_mod_cleared.2
    (fun a0 a1 o n t => (·.2.2) <$> addSeal demoContext (fun c _ _ => .ok c) a0 a1 o n t)
    (fun out => pure out) [] [] [] 1 .boolean (.check "Unsupported type boolean") ⟨false⟩
    ((addSeal_keepsLazyMod _ _ _ _ _ _ _).map _) rfl).1⟩

/-! ## What an `Add` node computes -/

/-- When an `Add` node returns, `add_seal` ran its slot loop with `lazy_mod()` off. -/
theorem generateCallsAdd_ok {ctx : SealContext}
    {addPlainSeal : Ciphertext → HEPlaintext → Bool → Except Fault Ciphertext}
    {arg0 arg1 out : List HEType} {count : Nat} {elementType : ElementType}
    {b b' : HESealBackend} {t : AddTensors}
    (h : (generateCallsAdd ctx addPlainSeal arg0 arg1 out count elementType).run b = .ok t b') :
    ∃ b₀, b₀.lazyMod = false ∧
      addSlots (scalarAddSealHEType ctx addPlainSeal b₀) (arg0, arg1, out) count = .ok t := by
  obtain ⟨b₀, _, hb₀, hk⟩ := avoidLazyMod_ok h
  exact ⟨b₀, hb₀, addSeal_ok _ _ _ _ _ _ _ hk⟩

/-- **A single `Add` adds matched operands with `Evaluator::add`.** When an `Add` node returns,
every slot `i` below the count whose two argument slots hold ciphertexts of one packing holds,
in the output, SEAL's `Evaluator::add` of the two as `match_modulus_and_scale_inplace` left
them, and in the arguments those matched ciphertexts; whatever `lazy_mod()` was before the node
and whatever the output slot held: a single `Add` never takes the inline lazy-mod branch. -/
theorem generate_calls_add_slots_use_evaluator_add (ctx : SealContext)
    (addPlainSeal : Ciphertext → HEPlaintext → Bool → Except Fault Ciphertext)
    (arg0 arg1 out : List HEType) (count : Nat) (elementType : ElementType)
    (b b' : HESealBackend) (t : AddTensors)
    (h : (generateCallsAdd ctx addPlainSeal arg0 arg1 out count elementType).run b = .ok t b')
    (i : Nat) (hi : i < count) (c0 c1 : Ciphertext) (p : Bool)
    (h0 : arg0[i]? = some ⟨.ciphertext c0, p⟩) (h1 : arg1[i]? = some ⟨.ciphertext c1, p⟩) :
    ∃ m0 m1 e, matchModulusAndScaleInplace ctx c0 c1 = .ok (m0, m1) ∧
      evaluatorAdd ctx m0 m1 = .ok e ∧ t.1[i]? = some ⟨.ciphertext m0, p⟩ ∧
      t.2.1[i]? = some ⟨.ciphertext m1, p⟩ ∧ t.2.2[i]? = some ⟨.ciphertext e, p⟩ := by
  obtain ⟨b₀, hb₀, hslots⟩ := generateCallsAdd_ok h
  obtain ⟨⟨s0, s1, so⟩, r, hs, hr, ht⟩ := (addSlots_ok hslots).2 i hi
  obtain ⟨hs0, hs1, -⟩ := slotsAt_eq_some.1 hs
  cases h0.symm.trans hs0
  cases h1.symm.trans hs1
  obtain ⟨m0, m1, e, hm, he, rfl⟩ := scalarAddSealHEType_ciphertexts_ok hb₀ hr
  exact ⟨m0, m1, e, hm, he, slotsAt_eq_some.1 ht⟩

/-- An `Add` node with `lazy_mod()` on, over one slot holding 1 in its first limb on either side
at the scale `2^30`, and a plaintext output slot: the node returns, and its output is SEAL's sum
of the two, which the match leaves as they are. -/
theorem demo_add_node_uses_evaluator_add :
    ∃ t, (generateCallsAdd demoContext (fun c _ _ => .ok c)
        [⟨.ciphertext (limbCiphertext demoLevel (.level 0) demoScale 0 1), false⟩]
        [⟨.ciphertext (limbCiphertext demoLevel (.level 0) demoScale 0 1), false⟩]
        [.ofPlain [] false] 1 .f32).run ⟨true⟩ = .ok t ⟨true⟩ ∧
      ∃ m0 m1 e, matchModulusAndScaleInplace demoContext
          (limbCiphertext demoLevel (.level 0) demoScale 0 1)
          (limbCiphertext demoLevel (.level 0) demoScale 0 1) = .ok (m0, m1) ∧
        evaluatorAdd demoContext m0 m1 = .ok e ∧ t.1[0]? = some ⟨.ciphertext m0, false⟩ ∧
        t.2.1[0]? = some ⟨.ciphertext m1, false⟩ ∧ t.2.2[0]? = some ⟨.ciphertext e, false⟩ := by
  have hc := limbCiphertext_shaped demoLevel (.level 0) demoScale 0 1
  generalize limbCiphertext demoLevel (.level 0) demoScale 0 1 = c at hc ⊢
  have hm := @match_shaped demoContext demoLevel (.level 0) demoScale 2 rfl rfl _ _ hc hc
  obtain ⟨e, he, -, -⟩ := @evaluatorAdd_spec demoContext demoLevel (.level 0) demoScale 2 2 _ _
    rfl rfl hc hc (Nat.le_refl 2)
  have hslot : scalarAddSealHEType demoContext (fun c _ _ => .ok c) ⟨false⟩ ⟨.ciphertext c, false⟩
      ⟨.ciphertext c, false⟩ (.ofPlain [] false) =
        .ok (⟨.ciphertext c, false⟩, ⟨.ciphertext c, false⟩, ⟨.ciphertext e, false⟩) := by
    rw [scalarAddSealHEType_ciphertexts, scalarAddSealCipherCipher_of_match hm,
      scalarAddSealMatched_false, he]
    rfl
  have hrun : (generateCallsAdd demoContext (fun c _ _ => .ok c) [⟨.ciphertext c, false⟩]
      [⟨.ciphertext c, false⟩] [.ofPlain [] false] 1 .f32).run ⟨true⟩ =
        .ok ([⟨.ciphertext c, false⟩], [⟨.ciphertext c, false⟩], [⟨.ciphertext e, false⟩])
          ⟨true⟩ := by
    rw [generateCallsAdd, avoidLazyMod_run, if_pos rfl, addSeal_run, addSlots_one, hslot]
    rfl
  exact ⟨_, hrun, generate_calls_add_slots_use_evaluator_add demoContext _ _ _ _ 1 .f32 ⟨true⟩
    ⟨true⟩ _ hrun 0 (by decide) _ _ false rfl rfl⟩

end HeTransformer
