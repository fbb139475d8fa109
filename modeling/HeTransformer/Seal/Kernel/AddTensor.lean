import HeTransformer.Seal.Kernel.AddSeal

/-!
# `add_seal` on tensors

`add_seal` checks the element type and the count against both arguments, then runs
`scalar_add_seal` on each slot with the backend as it stands. On a slot, `scalar_add_seal` checks
that the two packing flags agree and dispatches on the two variants: two ciphertexts go to
`scalarAddSealCipherCipher`, which matches them in place and adds them with the branch the
backend's `lazy_mod()` selects; a ciphertext and a
plaintext go to SEAL's plain addition, unless the plaintext adds zero; two plaintexts are added
value by value, a single value standing for every slot. The empty plaintext, which the
ciphertext path skips as a zero, is no identity on the plaintext path: the sum there has the
smaller size unless one side has size one, so it is empty in either order
(`plain_add_empty_plaintext_is_empty`).

SEAL's `encode` and `add_plain`, and the scalar `add_plain` of seal_util.cpp, are not among the
sources: what they compute on a ciphertext and a plaintext that is not zero is a parameter
`addPlainSeal`.

A slot kernel may write all three of its slots: the output, and the two arguments, which the
match of two ciphertexts updates in place. `addSlots_ok` says what a slot loop that returned
wrote: slot `i < count` of the three tensors holds the slot kernel's result on the `i`-th slots
as they were given, and every later slot is as it was.
-/

namespace HeTransformer

/-! ## The backend -/

/-- ngraph's element types. -/
inductive ElementType where
  | boolean | bf16 | f16 | f32 | f64 | i8 | i16 | i32 | i64 | u1 | u8 | u16 | u32 | u64
  deriving DecidableEq, Repr

/-- `element::Type::get_type_name()`, what `operator<<` prints (ngraph is not among the
sources). -/
def ElementType.typeName : ElementType → String
  | .boolean => "boolean" | .bf16 => "bf16" | .f16 => "f16" | .f32 => "f32" | .f64 => "f64"
  | .i8 => "i8" | .i16 => "i16" | .i32 => "i32" | .i64 => "i64" | .u1 => "u1" | .u8 => "u8"
  | .u16 => "u16" | .u32 => "u32" | .u64 => "u64"

/-- What `generate_calls` and `add_seal` read and write of `HESealBackend`: `m_lazy_mod`. -/
structure HESealBackend where
  lazyMod : Bool
  deriving DecidableEq, Repr

/-- `m_supported_types`. -/
def supportedTypes : List ElementType := [.f32, .i32, .i64, .f64]

/-- `HESealBackend::is_supported_type`. -/
def isSupportedType (t : ElementType) : Bool := supportedTypes.contains t

/-- A kernel: it reads and writes the backend, and may raise. -/
abbrev BackendM := EStateM Fault HESealBackend

/-- The backend after a kernel, whether it returned or raised. -/
def resultState {α : Type} : EStateM.Result Fault HESealBackend α → HESealBackend
  | .ok _ b => b
  | .error _ b => b

/-! ## `scalar_add_seal` on a slot -/

/-- Whether `scalar_add_seal` on a ciphertext and the plaintext `arg1` copies the ciphertext:
`arg1` is empty, or a single zero. -/
def addZero : HEPlaintext → Bool
  | [] => true
  | [x] => x == 0.0
  | _ => false

/-- `scalar_add_seal` on a ciphertext and a plaintext. -/
def scalarAddSealCipherPlain
    (addPlainSeal : Ciphertext → HEPlaintext → Bool → Except Fault Ciphertext)
    (arg0 : Ciphertext) (arg1 : HEPlaintext) (complexPacking : Bool) :
    Except Fault Ciphertext :=
  if addZero arg1 then .ok arg0 else addPlainSeal arg0 arg1 complexPacking

/-- `scalar_add_seal` on two plaintexts: a single value of `arg0`, else of `arg1`, is added to
every value of the other; otherwise the values are added pairwise up to the shorter length. -/
def scalarAddSealPlain : HEPlaintext → HEPlaintext → HEPlaintext
  | [x], ys => ys.map (· + x)
  | xs, [y] => xs.map (· + y)
  | xs, ys => List.zipWith (· + ·) xs ys

@[simp] theorem scalarAddSealPlain_nil_right (p : HEPlaintext) : scalarAddSealPlain p [] = [] := by
  rcases p with _ | ⟨x, _ | ⟨y, zs⟩⟩ <;> rfl

@[simp] theorem scalarAddSealPlain_nil_left (p : HEPlaintext) : scalarAddSealPlain [] p = [] := by
  rcases p with _ | ⟨x, _ | ⟨y, zs⟩⟩ <;> rfl

/-- `scalar_add_seal` on two slots into `out`: it returns the three slots as it leaves them. The
output takes `arg0`'s packing flag; two ciphertexts are matched in place and added into `out`'s
ciphertext, or into an empty one when `out` holds a plaintext. -/
def scalarAddSealHEType (ctx : SealContext)
    (addPlainSeal : Ciphertext → HEPlaintext → Bool → Except Fault Ciphertext)
    (backend : HESealBackend) (arg0 arg1 out : HEType) : Except Fault (HEType × HEType × HEType) :=
  if arg0.complexPacking = arg1.complexPacking then
    let packing := arg0.complexPacking
    let outCipher : Ciphertext := match out.value with
      | .ciphertext c => c
      | .plaintext _ => Ciphertext.empty
    let cipher (r : Except Fault Ciphertext) : Except Fault (HEType × HEType × HEType) :=
      (fun c => (arg0, arg1, ⟨.ciphertext c, packing⟩)) <$> r
    match arg0.value, arg1.value with
    | .ciphertext c0, .ciphertext c1 =>
        (fun r => ({ arg0 with value := .ciphertext r.1 }, { arg1 with value := .ciphertext r.2.1 },
            ⟨.ciphertext r.2.2, packing⟩)) <$>
          scalarAddSealCipherCipher ctx backend.lazyMod c0 c1 outCipher
    | .ciphertext c0, .plaintext p1 =>
        cipher (scalarAddSealCipherPlain addPlainSeal c0 p1 packing)
    | .plaintext p0, .ciphertext c1 =>
        cipher (scalarAddSealCipherPlain addPlainSeal c1 p0 packing)
    | .plaintext p0, .plaintext p1 =>
        .ok (arg0, arg1, ⟨.plaintext (scalarAddSealPlain p0 p1), packing⟩)
  else .error (.check "Complex packing types don't match")

/-- Two ciphertext slots of one packing: the slot kernel matches them and adds them with the
branch `lazy_mod()` selects, `out`'s ciphertext being that of `out`, or an empty one. -/
theorem scalarAddSealHEType_ciphertexts (ctx : SealContext)
    (addPlainSeal : Ciphertext → HEPlaintext → Bool → Except Fault Ciphertext)
    (backend : HESealBackend) (c0 c1 : Ciphertext) (p : Bool) (out : HEType) :
    scalarAddSealHEType ctx addPlainSeal backend ⟨.ciphertext c0, p⟩ ⟨.ciphertext c1, p⟩ out =
      (fun r => (⟨.ciphertext r.1, p⟩, ⟨.ciphertext r.2.1, p⟩, ⟨.ciphertext r.2.2, p⟩)) <$>
        scalarAddSealCipherCipher ctx backend.lazyMod c0 c1
          (match out.value with
            | .ciphertext c => c
            | .plaintext _ => Ciphertext.empty) := by
  simp only [scalarAddSealHEType, ↓reduceIte]

/-- With `lazy_mod()` off, two ciphertext slots of one packing that the slot kernel adds hold
afterwards the match of the two, and the output SEAL's `Evaluator::add` of that match, whatever
`out` held. -/
theorem scalarAddSealHEType_ciphertexts_ok {ctx : SealContext}
    {addPlainSeal : Ciphertext → HEPlaintext → Bool → Except Fault Ciphertext}
    {backend : HESealBackend} (hb : backend.lazyMod = false) {c0 c1 : Ciphertext} {p : Bool}
    {out : HEType} {v : HEType × HEType × HEType}
    (h : scalarAddSealHEType ctx addPlainSeal backend ⟨.ciphertext c0, p⟩ ⟨.ciphertext c1, p⟩
      out = .ok v) :
    ∃ m0 m1 e, matchModulusAndScaleInplace ctx c0 c1 = .ok (m0, m1) ∧
      evaluatorAdd ctx m0 m1 = .ok e ∧
      v = (⟨.ciphertext m0, p⟩, ⟨.ciphertext m1, p⟩, ⟨.ciphertext e, p⟩) := by
  rw [scalarAddSealHEType_ciphertexts, hb] at h
  cases hm : matchModulusAndScaleInplace ctx c0 c1 with
  | error f =>
      simp only [scalarAddSealCipherCipher, hm, bind, Except.bind] at h
      cases h
  | ok m =>
      rw [scalarAddSealCipherCipher_of_match hm, scalarAddSealMatched_false] at h
      cases he : evaluatorAdd ctx m.1 m.2 with
      | error f => rw [he] at h; cases h
      | ok e => rw [he] at h; cases h; exact ⟨m.1, m.2, e, rfl, he, rfl⟩

/-- The empty plaintext on the plain+plain path: `arg0.size() == 1` resizes the result to
`arg1.size()`, `arg1.size() == 1` to `arg0.size()`, and otherwise the result has the smaller
size, so in either order and through the slot dispatcher the sum is empty, whatever the other
plaintext; the arguments are left as they were. The cipher+plain path copies the ciphertext
instead (`add_zero`). -/
theorem plain_add_empty_plaintext_is_empty (ctx : SealContext)
    (addPlainSeal : Ciphertext → HEPlaintext → Bool → Except Fault Ciphertext)
    (backend : HESealBackend) (p : HEPlaintext) (b : Bool) (out : HEType) (c : Ciphertext) :
    scalarAddSealPlain p [] = [] ∧ scalarAddSealPlain [] p = [] ∧
      scalarAddSealHEType ctx addPlainSeal backend (.ofPlain p b) (.ofPlain [] b) out =
        .ok (.ofPlain p b, .ofPlain [] b, .ofPlain [] b) ∧
      scalarAddSealHEType ctx addPlainSeal backend (.ofPlain [] b) (.ofPlain p b) out =
        .ok (.ofPlain [] b, .ofPlain p b, .ofPlain [] b) ∧
      scalarAddSealCipherPlain addPlainSeal c [] b = .ok c :=
  ⟨scalarAddSealPlain_nil_right p, scalarAddSealPlain_nil_left p,
    by simp [scalarAddSealHEType, HEType.ofPlain], by simp [scalarAddSealHEType, HEType.ofPlain],
    rfl⟩

/-! ## The slot loop -/

/-- The three tensors of `add_seal`: `arg0`, `arg1` and `out`. -/
abbrev AddTensors := List HEType × List HEType × List HEType

/-- Slot `i` of each of the three tensors. -/
def slotsAt (t : AddTensors) (i : Nat) : Option (HEType × HEType × HEType) :=
  match t.1[i]?, t.2.1[i]?, t.2.2[i]? with
  | some a, some b, some o => some (a, b, o)
  | _, _, _ => none

theorem slotsAt_eq_some {t : AddTensors} {i : Nat} {s : HEType × HEType × HEType} :
    slotsAt t i = some s ↔
      t.1[i]? = some s.1 ∧ t.2.1[i]? = some s.2.1 ∧ t.2.2[i]? = some s.2.2 := by
  unfold slotsAt
  split
  · next ha hb ho => simp only [ha, hb, ho, Option.some_inj, Prod.ext_iff]
  · next h => exact ⟨nofun, fun ⟨ha, hb, ho⟩ => (h _ _ _ ha hb ho).elim⟩

/-- Slot `i` of each of the three tensors set to `r`. -/
def setSlots (t : AddTensors) (i : Nat) (r : HEType × HEType × HEType) : AddTensors :=
  (t.1.set i r.1, t.2.1.set i r.2.1, t.2.2.set i r.2.2)

/-- The slot loop of `add_seal`: for each `i < count`,
`scalar_add_seal(arg0[i], arg1[i], out[i])`, which may write all three slots. -/
def addSlots (scalarAddSeal : HEType → HEType → HEType → Except Fault (HEType × HEType × HEType))
    (t : AddTensors) : Nat → Except Fault AddTensors
  | 0 => .ok t
  | i + 1 => do
      let t ← addSlots scalarAddSeal t i
      match slotsAt t i with
      | some (a, b, o) => return setSlots t i (← scalarAddSeal a b o)
      | none => throw (.undefined "out[i] past the end")

/-- Slot `i` of the three tensors is the same in `t` and `t'`. -/
def SameSlots (t t' : AddTensors) (i : Nat) : Prop :=
  t'.1[i]? = t.1[i]? ∧ t'.2.1[i]? = t.2.1[i]? ∧ t'.2.2[i]? = t.2.2[i]?

theorem slotsAt_congr {t t' : AddTensors} {i : Nat} (h : SameSlots t t' i) :
    slotsAt t' i = slotsAt t i := by
  simp only [slotsAt, h.1, h.2.1, h.2.2]

theorem sameSlots_setSlots {t : AddTensors} {i j : Nat} (hij : i ≠ j)
    (r : HEType × HEType × HEType) : SameSlots t (setSlots t i r) j :=
  ⟨List.getElem?_set_ne hij, List.getElem?_set_ne hij, List.getElem?_set_ne hij⟩

theorem slotsAt_setSlots {t : AddTensors} {i : Nat} {s : HEType × HEType × HEType}
    (h : slotsAt t i = some s) (r : HEType × HEType × HEType) :
    slotsAt (setSlots t i r) i = some r :=
  let ⟨ha, hb, ho⟩ := slotsAt_eq_some.1 h
  slotsAt_eq_some.2 ⟨List.getElem?_set_self (List.getElem?_eq_some_iff.1 ha).1,
    List.getElem?_set_self (List.getElem?_eq_some_iff.1 hb).1,
    List.getElem?_set_self (List.getElem?_eq_some_iff.1 ho).1⟩

theorem SameSlots.trans {t t' t'' : AddTensors} {i : Nat} (h : SameSlots t t' i)
    (h' : SameSlots t' t'' i) : SameSlots t t'' i :=
  ⟨h'.1.trans h.1, h'.2.1.trans h.2.1, h'.2.2.trans h.2.2⟩

/-- A slot loop over `n + 1` slots that returned: the loop over `n` slots returned, slot `n` was
there, and the slot kernel returned on it, its result written to slot `n`. -/
theorem addSlots_succ_ok {f : HEType → HEType → HEType → Except Fault (HEType × HEType × HEType)}
    {t t' : AddTensors} {n : Nat} (h : addSlots f t (n + 1) = .ok t') :
    ∃ mid s r, addSlots f t n = .ok mid ∧ slotsAt mid n = some s ∧ f s.1 s.2.1 s.2.2 = .ok r ∧
      t' = setSlots mid n r := by
  simp only [addSlots, bind, Except.bind] at h
  split at h
  · cases h
  · next mid hmid =>
      split at h
      · next a b o hs =>
          simp only [pure, Except.pure] at h
          split at h
          · cases h
          · next r hr => cases h; exact ⟨mid, (a, b, o), r, hmid, hs, hr, rfl⟩
      · cases h

/-- What a slot loop over `n` slots that returned wrote: every slot from `n` on is as it was, and
slot `i < n` of the three tensors holds the slot kernel's result on slot `i` of the three as
they were given, since no other step of the loop writes it. -/
theorem addSlots_ok {f : HEType → HEType → HEType → Except Fault (HEType × HEType × HEType)} :
    ∀ {t t' : AddTensors} {n : Nat}, addSlots f t n = .ok t' →
    (∀ i, n ≤ i → SameSlots t t' i) ∧
    ∀ i < n, ∃ s r, slotsAt t i = some s ∧ f s.1 s.2.1 s.2.2 = .ok r ∧ slotsAt t' i = some r
  | _, _, 0, h => by
      cases h
      exact ⟨fun _ _ => ⟨rfl, rfl, rfl⟩, fun _ hi => absurd hi (Nat.not_lt_zero _)⟩
  | _, _, n + 1, h => by
      obtain ⟨mid, s, r, hmid, hs, hr, rfl⟩ := addSlots_succ_ok h
      obtain ⟨hframe, hslots⟩ := addSlots_ok hmid
      refine ⟨fun i hi => (hframe i (by omega)).trans (sameSlots_setSlots (by omega) r),
        fun i hi => ?_⟩
      rcases Nat.lt_succ_iff_lt_or_eq.1 hi with hi | rfl
      · obtain ⟨s', r', h₀, h₁, h₂⟩ := hslots i hi
        exact ⟨s', r', h₀, h₁, (slotsAt_congr (sameSlots_setSlots (by omega) r)).trans h₂⟩
      · exact ⟨s, r, (slotsAt_congr (hframe i le_rfl)).symm.trans hs, hr, slotsAt_setSlots hs r⟩

/-- The slot loop over one slot of each tensor is the slot kernel on the three. -/
theorem addSlots_one (f : HEType → HEType → HEType → Except Fault (HEType × HEType × HEType))
    (a b o : HEType) :
    addSlots f ([a], [b], [o]) 1 = (fun r => ([r.1], [r.2.1], [r.2.2])) <$> f a b o := by
  simp only [addSlots, bind, Except.bind, slotsAt, List.getElem?_cons_zero]
  cases f a b o <;> rfl

/-! ## `add_seal` -/

/-- `add_seal`: check the element type, and the count against both arguments, then add slot by
slot with the backend as it stands. It returns the three tensors as it leaves them: the
arguments are matched in place. -/
def addSeal (ctx : SealContext)
    (addPlainSeal : Ciphertext → HEPlaintext → Bool → Except Fault Ciphertext)
    (arg0 arg1 out : List HEType) (count : Nat) (elementType : ElementType) :
    BackendM AddTensors := do
  unless isSupportedType elementType do
    throw (.check ("Unsupported type " ++ elementType.typeName))
  unless count ≤ arg0.length do
    throw (.check ("Count " ++ toString count ++ " is too large for arg0, with size " ++
      toString arg0.length))
  unless count ≤ arg1.length do
    throw (.check ("Count " ++ toString count ++ " is too large for arg1, with size " ++
      toString arg1.length))
  let backend ← get
  match addSlots (scalarAddSealHEType ctx addPlainSeal backend) (arg0, arg1, out) count with
  | .ok t => pure t
  | .error f => throw f

/-- A kernel that leaves `lazy_mod()` as it found it, whether it returns or raises. -/
def KeepsLazyMod {α : Type} (kernel : BackendM α) : Prop :=
  ∀ b, (resultState (kernel.run b)).lazyMod = b.lazyMod

section Keeps

variable {α β : Type}

theorem KeepsLazyMod.of_pure (a : α) : KeepsLazyMod (pure a : BackendM α) := fun _ => rfl

theorem KeepsLazyMod.of_throw (e : Fault) : KeepsLazyMod (throw e : BackendM α) := fun _ => rfl

theorem KeepsLazyMod.get_state : KeepsLazyMod (get : BackendM HESealBackend) := fun _ => rfl

theorem KeepsLazyMod.bind {m : BackendM α} {f : α → BackendM β} (hm : KeepsLazyMod m)
    (hf : ∀ a, KeepsLazyMod (f a)) : KeepsLazyMod (m >>= f) := by
  intro b
  have h : (resultState (m b)).lazyMod = b.lazyMod := hm b
  change (resultState (EStateM.bind m f b)).lazyMod = b.lazyMod
  unfold EStateM.bind
  cases hs : m b with
  | ok a s => rw [hs] at h; exact (hf a s).trans h
  | error e s => rw [hs] at h; exact h

theorem KeepsLazyMod.map {m : BackendM α} (f : α → β) (hm : KeepsLazyMod m) :
    KeepsLazyMod (f <$> m) := by
  rw [map_eq_pure_bind]
  exact hm.bind fun _ => KeepsLazyMod.of_pure _

theorem KeepsLazyMod.ite {c : Prop} [Decidable c] {m m' : BackendM α} (hm : KeepsLazyMod m)
    (hm' : KeepsLazyMod m') : KeepsLazyMod (if c then m else m') := by
  split
  exacts [hm, hm']

theorem KeepsLazyMod.mapM {γ : Type} {f : γ → BackendM α} (hf : ∀ x, KeepsLazyMod (f x)) :
    ∀ xs : List γ, KeepsLazyMod (xs.mapM f)
  | [] => KeepsLazyMod.of_pure []
  | x :: xs => by
      rw [List.mapM_cons]
      exact (hf x).bind fun _ => (KeepsLazyMod.mapM hf xs).bind fun _ => KeepsLazyMod.of_pure _

end Keeps

section AddSeal

variable (ctx : SealContext)
  (addPlainSeal : Ciphertext → HEPlaintext → Bool → Except Fault Ciphertext)
  (arg0 arg1 out : List HEType) (count : Nat) (elementType : ElementType)

/-- `add_seal` raises at its first failed check, and otherwise runs the slot loop with the
backend; it never writes the backend. -/
theorem addSeal_run (b : HESealBackend) :
    (addSeal ctx addPlainSeal arg0 arg1 out count elementType).run b =
      if isSupportedType elementType then
        if count ≤ arg0.length then
          if count ≤ arg1.length then
            match addSlots (scalarAddSealHEType ctx addPlainSeal b) (arg0, arg1, out) count with
            | .ok t => .ok t b
            | .error f => .error f b
          else .error (.check ("Count " ++ toString count ++
            " is too large for arg1, with size " ++ toString arg1.length)) b
        else .error (.check ("Count " ++ toString count ++
          " is too large for arg0, with size " ++ toString arg0.length)) b
      else .error (.check ("Unsupported type " ++ elementType.typeName)) b := by
  by_cases hs : isSupportedType elementType = true
  · by_cases h₀ : count ≤ arg0.length
    · by_cases h₁ : count ≤ arg1.length
      · simp only [addSeal, EStateM.run, hs, h₀, h₁, ↓reduceIte]
        show (match addSlots (scalarAddSealHEType ctx addPlainSeal b) (arg0, arg1, out) count with
          | .ok t => pure t | .error f => throw f : BackendM AddTensors) b = _
        cases addSlots (scalarAddSealHEType ctx addPlainSeal b) (arg0, arg1, out) count <;> rfl
      · simp only [addSeal, EStateM.run, hs, h₀, h₁, ↓reduceIte]; rfl
    · simp only [addSeal, EStateM.run, hs, h₀, ↓reduceIte]; rfl
  · simp only [addSeal, EStateM.run, hs, ↓reduceIte]; rfl

/-- When `add_seal` returns, its result is the slot loop's with the backend it was given. -/
theorem addSeal_ok {b b' : HESealBackend} {t : AddTensors}
    (h : (addSeal ctx addPlainSeal arg0 arg1 out count elementType).run b = .ok t b') :
    addSlots (scalarAddSealHEType ctx addPlainSeal b) (arg0, arg1, out) count = .ok t := by
  rw [addSeal_run] at h
  split_ifs at h
  split at h
  · next heq => cases h; exact heq
  · cases h

theorem addSeal_keepsLazyMod :
    KeepsLazyMod (addSeal ctx addPlainSeal arg0 arg1 out count elementType) := by
  intro b
  rw [addSeal_run]
  repeat' split
  all_goals rfl

end AddSeal

end HeTransformer
