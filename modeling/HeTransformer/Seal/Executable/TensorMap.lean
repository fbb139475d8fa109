import HeTransformer.Types

/-!
# The tensor map of `call`

`call` maps each graph tensor (`descriptor::Tensor*`) to the `HETensor` that holds it: the
parameters' outputs to the input tensors, the results' outputs to the output tensors, and, as
the node loop runs, each node's outputs to a tensor it creates under the graph tensor's name.
After each node it drops the tensors of the node's `liveness_free_list`: for each, it erases
the first entry, in the map's iteration order, whose `HETensor` has the graph tensor's name.

`std::unordered_map` visits its entries in an order the standard leaves open (by bucket, and
the buckets follow the hash of the key, a pointer). The model takes that order as a parameter:
`slot` ranks the keys, and entries of equal rank are visited in insertion order. The kernels
`generate_calls` runs read and write the tensors' data, never the map, and are left out.

`liveStep` says what the loop is for over graph tensors: the tensors that hold data. When the
names the map gives the graph's tensors are apart and every freed tensor carries its own name,
the loop refines it for every iteration order (`call_tensor_map_refines_liveness`); when a
caller's tensor is named like a freed one, the erase drops the caller's entry instead or drops
nothing, whatever the iteration order (`freed_name_erases_parameter_entry`).
-/

namespace HeTransformer

/-- A graph tensor (`descriptor::Tensor`): its identity and `get_name()`. -/
structure TensorDesc where
  id : Nat
  name : String
  deriving DecidableEq

/-- A node of `m_nodes` as the node loop reads it. -/
structure GraphNode where
  isParameter : Bool
  inputs : List TensorDesc
  outputs : List TensorDesc
  livenessFreeList : List TensorDesc

/-- The compiled function: its parameters and results, and `m_nodes` in order. -/
structure Graph where
  parameters : List GraphNode
  results : List GraphNode
  nodes : List GraphNode

/-- `tensor_map`: each graph tensor with the `get_name()` of the `HETensor` it maps to, in
insertion order. -/
abbrev TensorMap := List (TensorDesc × String)

/-- `tensor_map.insert`: no change when the key is there already. -/
def mapInsert (t : TensorDesc) (name : String) (m : TensorMap) : TensorMap :=
  if m.any (·.1 == t) then m else m ++ [(t, name)]

/-- `tensor_map.at`: `std::out_of_range` when the key is not there. -/
def mapAt (t : TensorDesc) (m : TensorMap) : Except Fault String :=
  match m.find? (·.1 == t) with
  | some e => .ok e.2
  | none => .error .outOfRange

/-- The entry the iteration visits first: least in `slot`, the earliest inserted of those. -/
def firstVisited (slot : TensorDesc → Nat) : TensorMap → Option (TensorDesc × String)
  | [] => none
  | e :: es =>
      match firstVisited slot es with
      | some e' => if slot e'.1 < slot e.1 then some e' else some e
      | none => some e

/-- The loop of `call` that drops a freed tensor: erase the first entry, in iteration order,
whose `HETensor` is named `name`. -/
def eraseFirstNamed (slot : TensorDesc → Nat) (name : String) (m : TensorMap) : TensorMap :=
  match firstVisited slot (m.filter (·.2 == name)) with
  | some e => m.filter (·.1 != e.1)
  | none => m

/-- One iteration of the node loop: look the inputs up, create the outputs that are not in the
map, look them up, and drop the tensors of the node's `liveness_free_list`. -/
def runNode (slot : TensorDesc → Nat) (m : TensorMap) (n : GraphNode) :
    Except Fault TensorMap := do
  if n.isParameter then return m
  let _ ← n.inputs.mapM (mapAt · m)
  let m := n.outputs.foldl (fun m t => mapInsert t t.name m) m
  let _ ← n.outputs.mapM (mapAt · m)
  pure (n.livenessFreeList.foldl (fun m t => eraseFirstNamed slot t.name m) m)

/-- The map before the node loop: the parameters' outputs in order to the input tensors, each
result's output to its output tensor. -/
def initialTensorMap (g : Graph) (heInputs heOutputs : List String) : Except Fault TensorMap := do
  if heInputs.length < g.parameters.length then
    throw (.check "Not enough inputs in input map")
  let paramOuts := g.parameters.flatMap (·.outputs)
  let m ← (paramOuts.enum.foldlM fun m (i, t) =>
    match heInputs[i]? with
    | some name => .ok (mapInsert t name m)
    | none => .error (.undefined "he_inputs[input_count] past the end")) []
  (g.results.enum.foldlM fun m (i, r) =>
    match r.outputs.head?, heOutputs[i]? with
    | some t, some name => .ok (mapInsert t name m)
    | _, _ => .error (.undefined "he_outputs[output_count] past the end")) m

/-- The tensor map through `call`: set up, then every node of `m_nodes` in order. -/
def callTensorMap (slot : TensorDesc → Nat) (g : Graph) (heInputs heOutputs : List String) :
    Except Fault TensorMap := do
  let m ← initialTensorMap g heInputs heOutputs
  g.nodes.foldlM (runNode slot) m

/-! ## The tensors that hold data

What the node loop is for, said over graph tensors and not over names: a node reads tensors that
hold data; its outputs hold data from then on, until a node frees them. `liveStep` is `none` when
a node reads a tensor that holds no data.
-/

/-- The graph tensors in the map, in insertion order. -/
def mapKeys (m : TensorMap) : List TensorDesc := m.map Prod.fst

/-- Add `t` to the tensors that hold data, unless it is there. -/
def liveInsert (live : List TensorDesc) (t : TensorDesc) : List TensorDesc :=
  if t ∈ live then live else live ++ [t]

/-- One node over the tensors that hold data. -/
def liveStep (live : List TensorDesc) (n : GraphNode) : Option (List TensorDesc) :=
  if n.isParameter then some live
  else if n.inputs.all (· ∈ live) then
    some ((n.outputs.foldl liveInsert live).filter (· ∉ n.livenessFreeList))
  else none

theorem mem_foldl_liveInsert {t : TensorDesc} :
    ∀ (ts live : List TensorDesc), t ∈ ts.foldl liveInsert live ↔ t ∈ live ∨ t ∈ ts
  | [], _ => by simp
  | t' :: ts, live => by
      rw [List.foldl_cons, mem_foldl_liveInsert ts, liveInsert, List.mem_cons]
      split
      · next h =>
          exact ⟨fun h' => h'.imp_right .inr,
            fun h' => h'.elim .inl (·.elim (fun e => .inl (e ▸ h)) .inr)⟩
      · simp only [List.mem_append, List.mem_singleton, or_assoc]

theorem nodup_liveInsert {live : List TensorDesc} (h : live.Nodup) (t : TensorDesc) :
    (liveInsert live t).Nodup := by
  rw [liveInsert]
  split
  · exact h
  · next ht =>
      exact List.pairwise_append.2 ⟨h, List.pairwise_singleton _ _,
        fun a ha b hb hab => ht (List.mem_singleton.1 hb ▸ hab ▸ ha)⟩

/-- `tensor_map.insert` tests the key by membership. -/
theorem mapInsert_eq (t : TensorDesc) (name : String) (m : TensorMap) :
    mapInsert t name m = if t ∈ mapKeys m then m else m ++ [(t, name)] := by
  have hany : m.any (·.1 == t) = true ↔ t ∈ mapKeys m := by simp [mapKeys]
  simp only [mapInsert, hany]

@[simp] theorem mapKeys_mapInsert (t : TensorDesc) (name : String) (m : TensorMap) :
    mapKeys (mapInsert t name m) = liveInsert (mapKeys m) t := by
  rw [mapInsert_eq, liveInsert]
  split <;> simp [mapKeys]

theorem mapKeys_filter (p : TensorDesc → Bool) (m : TensorMap) :
    mapKeys (m.filter (p ∘ Prod.fst)) = (mapKeys m).filter p :=
  (List.filter_map _ _).symm

/-- `tensor_map.at` finds the tensors in the map, and only those. -/
theorem mapAt_ok_iff (t : TensorDesc) (m : TensorMap) :
    (∃ s, mapAt t m = .ok s) ↔ t ∈ mapKeys m := by
  rw [mapKeys, List.mem_map]
  unfold mapAt
  split
  · next e he =>
      exact iff_of_true ⟨_, rfl⟩
        ⟨e, List.mem_of_find?_eq_some he, by simpa using List.find?_some he⟩
  · next he =>
      refine iff_of_false (fun ⟨_, h⟩ => by cases h) fun ⟨e, hm, het⟩ => ?_
      exact List.find?_eq_none.1 he e hm (by simpa using het)

theorem mapM_mapAt_ok_iff (m : TensorMap) : ∀ ts : List TensorDesc,
    (∃ r, ts.mapM (mapAt · m) = .ok r) ↔ ∀ t ∈ ts, t ∈ mapKeys m
  | [] => iff_of_true ⟨[], rfl⟩ fun _ h => absurd h (List.not_mem_nil _)
  | t :: ts => by
      rw [List.mapM_cons, List.forall_mem_cons, ← mapAt_ok_iff, ← mapM_mapAt_ok_iff m ts]
      cases mapAt t m <;> cases ts.mapM (mapAt · m) <;>
        simp [bind, Except.bind, pure, Except.pure]

/-! ## When the names are apart

`call` erases a freed tensor by its name, and a caller's tensor can carry any name. Let
`mapName m₀ t` be the name of the `HETensor` that `t` maps to: the caller's name for a tensor of
the map `m₀` before the node loop, else its own. When `mapName m₀` tells the graph's tensors
apart and every freed tensor carries its own name, each erase removes the freed tensor's entry
and no other, for every iteration order of the map, and the node loop refines `liveStep`.
-/

/-- The name of the `HETensor` that `t` maps to: the caller's, or its own. -/
def mapName (m₀ : TensorMap) (t : TensorDesc) : String :=
  match m₀.find? (·.1 == t) with
  | some e => e.2
  | none => t.name

/-- The tensors of a graph: those of the map before the node loop, and every tensor a node
outputs or frees. -/
def graphTensors (g : Graph) (m₀ : TensorMap) : List TensorDesc :=
  mapKeys m₀ ++ g.nodes.flatMap fun n => n.outputs ++ n.livenessFreeList

theorem mapName_of_not_mem {m₀ : TensorMap} {t : TensorDesc} (h : t ∉ mapKeys m₀) :
    mapName m₀ t = t.name := by
  have hnone : m₀.find? (·.1 == t) = none := List.find?_eq_none.2 fun e he het =>
    h (List.mem_map.2 ⟨e, he, by simpa using het⟩)
  simp only [mapName, hnone]

theorem mapName_of_mem : ∀ {m₀ : TensorMap}, (mapKeys m₀).Nodup → ∀ e ∈ m₀, mapName m₀ e.1 = e.2
  | [], _, _, he => absurd he (List.not_mem_nil _)
  | e' :: m₀, hnd, e, he => by
      rw [mapKeys, List.map_cons, List.nodup_cons] at hnd
      rcases List.mem_cons.1 he with rfl | he
      · simp [mapName]
      · have hk : (e'.1 == e.1) = false :=
          beq_false_of_ne fun h => hnd.1 (h ▸ List.mem_map_of_mem _ he)
        have ih := mapName_of_mem hnd.2 e he
        simp only [mapName, List.find?_cons, hk] at ih ⊢
        exact ih

theorem mem_of_firstVisited {slot : TensorDesc → Nat} :
    ∀ {l : TensorMap} {e : TensorDesc × String}, firstVisited slot l = some e → e ∈ l
  | [], _, h => by cases h
  | e' :: l, e, h => by
      simp only [firstVisited] at h
      split at h
      · next e'' he'' =>
          split at h <;> cases h
          · exact List.mem_cons_of_mem _ (mem_of_firstVisited he'')
          · exact List.mem_cons_self _ _
      · cases h
        exact List.mem_cons_self _ _

theorem firstVisited_eq_none {slot : TensorDesc → Nat} :
    ∀ {l : TensorMap}, firstVisited slot l = none → l = []
  | [], _ => rfl
  | _ :: l, h => by
      simp only [firstVisited] at h
      split at h
      · split at h <;> cases h
      · cases h

/-- The invariant of the node loop when the names are apart: each entry carries the name
`mapName m₀` gives its key; the keys are tensors of `S`; and a tensor of `m₀` that has left the
map carries its own name. -/
structure NamesApart (m₀ : TensorMap) (S : List TensorDesc) (m : TensorMap) : Prop where
  labelled : ∀ e ∈ m, e.2 = mapName m₀ e.1
  within : ∀ t ∈ mapKeys m, t ∈ S
  dropped : ∀ t ∈ mapKeys m₀, t ∉ mapKeys m → mapName m₀ t = t.name

section NamesApart

variable (slot : TensorDesc → Nat) {m₀ : TensorMap} {S : List TensorDesc}
  (hinj : ∀ a ∈ S, ∀ b ∈ S, mapName m₀ a = mapName m₀ b → a = b)

theorem NamesApart.erase {m : TensorMap} (h : NamesApart m₀ S m) (t : TensorDesc)
    (ht : mapName m₀ t = t.name) : NamesApart m₀ S (m.filter (·.1 != t)) := by
  have hkeys : mapKeys (m.filter (·.1 != t)) = (mapKeys m).filter (· != t) :=
    mapKeys_filter (· != t) m
  refine ⟨fun e he => h.labelled e (List.mem_filter.1 he).1, fun k hk => ?_, fun k hk hk' => ?_⟩
  · rw [hkeys] at hk
    exact h.within k (List.mem_filter.1 hk).1
  · rw [hkeys, List.mem_filter] at hk'
    by_cases hkt : k = t
    · exact hkt ▸ ht
    · exact h.dropped k hk fun hm => hk' ⟨hm, by simpa using hkt⟩

theorem NamesApart.insert {m : TensorMap} (h : NamesApart m₀ S m) {t : TensorDesc}
    (ht : t ∈ S) : NamesApart m₀ S (mapInsert t t.name m) := by
  refine ⟨fun e he => ?_, fun k hk => ?_, fun k hk hk' => h.dropped k hk fun hm => hk' ?_⟩
  · rw [mapInsert_eq] at he
    split at he
    · exact h.labelled e he
    · next hn =>
        rcases List.mem_append.1 he with he | he
        · exact h.labelled e he
        · rw [List.mem_singleton.1 he]
          by_cases h₀ : t ∈ mapKeys m₀
          · exact (h.dropped t h₀ hn).symm
          · exact (mapName_of_not_mem h₀).symm
  · rw [mapKeys_mapInsert, liveInsert] at hk
    split at hk
    · exact h.within k hk
    · rcases List.mem_append.1 hk with hk | hk
      · exact h.within k hk
      · exact List.mem_singleton.1 hk ▸ ht
  · rw [mapKeys_mapInsert, liveInsert]
    split
    · exact hm
    · exact List.mem_append_left _ hm

include hinj in
/-- With the names apart, erasing a freed tensor by its name removes its entry and no other,
whichever entry the map's iteration visits first. -/
theorem eraseFirstNamed_apart {m : TensorMap} (h : NamesApart m₀ S m) {t : TensorDesc}
    (ht : t ∈ S) (hown : mapName m₀ t = t.name) :
    eraseFirstNamed slot t.name m = m.filter (·.1 != t) := by
  have key : ∀ e ∈ m, e.2 = t.name → e.1 = t := fun e he hn =>
    hinj _ (h.within _ (List.mem_map_of_mem _ he)) _ ht
      ((h.labelled e he).symm.trans (hn.trans hown.symm))
  rw [eraseFirstNamed]
  split
  · next e he =>
      obtain ⟨hm, hn⟩ := List.mem_filter.1 (mem_of_firstVisited he)
      rw [key e hm (by simpa using hn)]
  · next he =>
      refine (List.filter_eq_self.2 fun e hm => ?_).symm
      have hn : ¬ e.2 = t.name := fun hn => List.not_mem_nil e
        (firstVisited_eq_none he ▸ List.mem_filter.2 ⟨hm, by simpa using hn⟩)
      exact bne_iff_ne.2 fun het => hn (by rw [h.labelled e hm, het, hown])

include hinj in
theorem foldl_eraseFirstNamed_apart : ∀ (ts : List TensorDesc) {m : TensorMap},
    NamesApart m₀ S m → (∀ t ∈ ts, t ∈ S ∧ mapName m₀ t = t.name) →
    ts.foldl (fun m t => eraseFirstNamed slot t.name m) m = m.filter (·.1 ∉ ts) ∧
      NamesApart m₀ S (m.filter (·.1 ∉ ts))
  | [], m, h, _ => by simpa using h
  | t :: ts, m, h, hts => by
      obtain ⟨ht, hown⟩ := hts t (List.mem_cons_self _ _)
      obtain ⟨ih, ih'⟩ := foldl_eraseFirstNamed_apart ts (h.erase t hown) fun t' ht' =>
        hts t' (List.mem_cons_of_mem _ ht')
      have hf : (m.filter (·.1 != t)).filter (·.1 ∉ ts) = m.filter (·.1 ∉ t :: ts) := by
        rw [List.filter_filter]
        congr 1
        funext e
        by_cases h₁ : e.1 = t <;> simp [h₁]
      rw [List.foldl_cons, eraseFirstNamed_apart slot hinj h ht hown, ih, hf]
      exact ⟨rfl, hf ▸ ih'⟩

theorem foldl_mapInsert_apart : ∀ (ts : List TensorDesc) {m : TensorMap},
    NamesApart m₀ S m → (∀ t ∈ ts, t ∈ S) →
    mapKeys (ts.foldl (fun m t => mapInsert t t.name m) m) = ts.foldl liveInsert (mapKeys m) ∧
      NamesApart m₀ S (ts.foldl (fun m t => mapInsert t t.name m) m)
  | [], _, h, _ => ⟨rfl, h⟩
  | t :: ts, m, h, hts => by
      obtain ⟨ih, ih'⟩ := foldl_mapInsert_apart ts (h.insert (hts t (List.mem_cons_self _ _)))
        fun t' ht' => hts t' (List.mem_cons_of_mem _ ht')
      exact ⟨by rw [List.foldl_cons, ih, mapKeys_mapInsert]; rfl, ih'⟩

include hinj in
/-- **One node refines `liveStep`.** With the names apart, a node of the loop fails exactly when
it reads a tensor that holds no data, and otherwise leaves in the map exactly the tensors that
hold data after it. -/
theorem runNode_refines {m : TensorMap} {n : GraphNode} (h : NamesApart m₀ S m)
    (hout : ∀ t ∈ n.outputs, t ∈ S)
    (hfree : ∀ t ∈ n.livenessFreeList, t ∈ S ∧ mapName m₀ t = t.name) :
    (runNode slot m n).toOption.map mapKeys = liveStep (mapKeys m) n ∧
      ∀ m', runNode slot m n = .ok m' → NamesApart m₀ S m' := by
  by_cases hp : n.isParameter = true
  · simp only [runNode, liveStep, hp, ↓reduceIte]
    exact ⟨rfl, fun m' hm => by cases hm; exact h⟩
  have hrun : runNode slot m n = (n.inputs.mapM (mapAt · m) >>= fun _ =>
      n.outputs.mapM (mapAt · (n.outputs.foldl (fun m t => mapInsert t t.name m) m)) >>= fun _ =>
      pure (n.livenessFreeList.foldl (fun m t => eraseFirstNamed slot t.name m)
        (n.outputs.foldl (fun m t => mapInsert t t.name m) m))) := by
    simp only [runNode, hp]
    rfl
  obtain ⟨hkeys, hins⟩ := foldl_mapInsert_apart n.outputs h hout
  obtain ⟨herase, hfin⟩ := foldl_eraseFirstNamed_apart slot hinj n.livenessFreeList hins hfree
  obtain ⟨r, hr⟩ := (mapM_mapAt_ok_iff _ n.outputs).2 fun t ht => by
    rw [hkeys, mem_foldl_liveInsert]
    exact .inr ht
  simp only [liveStep, hp, Bool.false_eq_true, ↓reduceIte, List.all_eq_true, decide_eq_true_eq]
  by_cases hin : ∀ t ∈ n.inputs, t ∈ mapKeys m
  · obtain ⟨r₀, hr₀⟩ := (mapM_mapAt_ok_iff m n.inputs).2 hin
    have hfk : mapKeys (List.filter (·.1 ∉ n.livenessFreeList)
        (n.outputs.foldl (fun m t => mapInsert t t.name m) m)) =
        (n.outputs.foldl liveInsert (mapKeys m)).filter (· ∉ n.livenessFreeList) := by
      rw [← hkeys]
      exact mapKeys_filter (fun t => decide (t ∉ n.livenessFreeList)) _
    rw [hrun, hr₀, if_pos hin]
    simp only [bind, Except.bind, hr, pure, Except.pure, herase, Except.toOption,
      Option.map_some', hfk]
    exact ⟨trivial, fun m' hm => by cases hm; exact hfin⟩
  · rw [hrun, if_neg hin]
    cases hr₀ : n.inputs.mapM (mapAt · m) with
    | error f => exact ⟨rfl, fun m' hm => by cases hm⟩
    | ok r₀ => exact absurd ((mapM_mapAt_ok_iff m n.inputs).1 ⟨r₀, hr₀⟩) hin

include hinj in
/-- **The node loop refines `liveStep`**, over every node in order. -/
theorem foldlM_runNode_refines : ∀ (ns : List GraphNode) {m : TensorMap}, NamesApart m₀ S m →
    (∀ n ∈ ns, (∀ t ∈ n.outputs, t ∈ S) ∧
      ∀ t ∈ n.livenessFreeList, t ∈ S ∧ mapName m₀ t = t.name) →
    (ns.foldlM (runNode slot) m).toOption.map mapKeys = ns.foldlM liveStep (mapKeys m)
  | [], _, _, _ => rfl
  | n :: ns, m, h, hns => by
      obtain ⟨hout, hfree⟩ := hns n (List.mem_cons_self _ _)
      obtain ⟨hstep, hinv⟩ := runNode_refines slot hinj h hout hfree
      rw [List.foldlM_cons, List.foldlM_cons]
      cases hr : runNode slot m n with
      | error f =>
          rw [hr] at hstep
          rw [← hstep]
          rfl
      | ok m' =>
          rw [hr] at hstep
          rw [← hstep]
          exact foldlM_runNode_refines ns (hinv m' hr) fun n' hn' =>
            hns n' (List.mem_cons_of_mem _ hn')

end NamesApart

theorem foldlM_ok_inv {α β ε : Type} (P : α → Prop) {f : α → β → Except ε α}
    (hf : ∀ a b a', P a → f a b = .ok a' → P a') :
    ∀ (l : List β) {a a' : α}, P a → l.foldlM f a = .ok a' → P a'
  | [], _, _, ha, h => by cases h; exact ha
  | b :: l, a, a', ha, h => by
      rw [List.foldlM_cons] at h
      cases hb : f a b with
      | error e => rw [hb] at h; cases h
      | ok a₁ => rw [hb] at h; exact foldlM_ok_inv P hf l (hf a b a₁ ha hb) h

/-- The map before the node loop has each tensor once, since `tensor_map.insert` builds it. -/
theorem nodup_initialTensorMap {g : Graph} {heInputs heOutputs : List String} {m₀ : TensorMap}
    (h : initialTensorMap g heInputs heOutputs = .ok m₀) : (mapKeys m₀).Nodup := by
  have step : ∀ m name t, (mapKeys m).Nodup → (mapKeys (mapInsert t name m)).Nodup :=
    fun m name t hm => (mapKeys_mapInsert t name m) ▸ nodup_liveInsert hm t
  simp only [initialTensorMap] at h
  split at h
  · cases h
  · simp only [bind, Except.bind, pure, Except.pure] at h
    split at h
    · cases h
    · next m hm =>
        refine foldlM_ok_inv (fun m => (mapKeys m).Nodup) (fun m r m' hn hr => ?_) _
          (foldlM_ok_inv (fun m => (mapKeys m).Nodup) (fun m r m' hn hr => ?_) _
            (by exact List.nodup_nil) hm) h
        · split at hr
          · cases hr
            exact step _ _ _ hn
          · cases hr
        · split at hr
          · cases hr
            exact step _ _ _ hn
          · cases hr

/-- **The node loop of `call` with the names apart.** When the names the map gives the graph's
tensors tell them apart, and every freed tensor carries its own name, `call`'s tensor map, for
every iteration order of the map, fails exactly when a node reads a tensor that holds no data,
and otherwise ends holding exactly the tensors that hold data after the last node. -/
theorem call_tensor_map_refines_liveness (slot : TensorDesc → Nat) (g : Graph)
    (heInputs heOutputs : List String) (m₀ : TensorMap)
    (hinit : initialTensorMap g heInputs heOutputs = .ok m₀)
    (hinj : ∀ a ∈ graphTensors g m₀, ∀ b ∈ graphTensors g m₀,
      mapName m₀ a = mapName m₀ b → a = b)
    (hown : ∀ n ∈ g.nodes, ∀ t ∈ n.livenessFreeList, mapName m₀ t = t.name) :
    (callTensorMap slot g heInputs heOutputs).toOption.map mapKeys =
      g.nodes.foldlM liveStep (mapKeys m₀) := by
  have hcall : callTensorMap slot g heInputs heOutputs = g.nodes.foldlM (runNode slot) m₀ := by
    simp only [callTensorMap, hinit]
    rfl
  have hmem : ∀ n ∈ g.nodes, ∀ t ∈ n.outputs ++ n.livenessFreeList, t ∈ graphTensors g m₀ :=
    fun n hn t ht => List.mem_append_right _ (List.mem_flatMap.2 ⟨n, hn, ht⟩)
  have h₀ : NamesApart m₀ (graphTensors g m₀) m₀ :=
    ⟨fun e he => (mapName_of_mem (nodup_initialTensorMap hinit) e he).symm,
      fun t ht => List.mem_append_left _ ht, fun _ ht hn => absurd ht hn⟩
  rw [hcall]
  exact foldlM_runNode_refines slot hinj g.nodes h₀ fun n hn =>
    ⟨fun t ht => hmem n hn t (List.mem_append_left _ ht),
      fun t ht => ⟨hmem n hn t (List.mem_append_right _ ht), hown n hn t ht⟩⟩

/-! ## A caller's tensor named like a freed tensor -/

/-- A chain `x₁ = x₀ + x₀`, `x₂ = x₁ + x₁`, `x₃ = x₀ + x₂` with its result: topological, and
each tensor is freed after its last reader. -/
def sharedNameGraph : Graph :=
  let d₀ : TensorDesc := ⟨0, "Parameter_0"⟩
  let d₁ : TensorDesc := ⟨1, "Add_1"⟩
  let d₂ : TensorDesc := ⟨2, "Add_2"⟩
  let d₃ : TensorDesc := ⟨3, "Add_3"⟩
  let d₄ : TensorDesc := ⟨4, "Result_4"⟩
  let param : GraphNode := ⟨true, [], [d₀], []⟩
  let result : GraphNode := ⟨false, [d₃], [d₄], [d₃]⟩
  { parameters := [param], results := [result],
    nodes := [param, ⟨false, [d₀, d₀], [d₁], []⟩, ⟨false, [d₁, d₁], [d₂], [d₁]⟩,
      ⟨false, [d₀, d₂], [d₃], [d₀, d₂]⟩, result] }

/-- With the caller's input tensor named `Add_1`, the name of `x₁`'s descriptor, dropping `x₁`
erases whichever entry named `Add_1` the iteration visits first, and dropping `x₀` erases
nothing, since no entry is named `Parameter_0`. So for every iteration order, either the
parameter's entry goes and the next node's lookup of `x₀` throws (as when the keys are visited
in order of identity), or the call ends with the parameter's entry still in the map after its
last reader freed it. -/
theorem freed_name_erases_parameter_entry :
    callTensorMap TensorDesc.id sharedNameGraph ["Add_1"] ["out"] = .error .outOfRange ∧
    ∀ slot : TensorDesc → Nat,
      callTensorMap slot sharedNameGraph ["Add_1"] ["out"] = .error .outOfRange ∨
      callTensorMap slot sharedNameGraph ["Add_1"] ["out"] =
        .ok [(⟨0, "Parameter_0"⟩, "Add_1"), (⟨4, "Result_4"⟩, "out")] := by
  refine ⟨rfl, fun slot => ?_⟩
  -- the one choice the iteration order makes: which entry named `Add_1` it visits first
  have hfirst : firstVisited slot [(⟨0, "Parameter_0"⟩, "Add_1"), (⟨1, "Add_1"⟩, "Add_1")] =
      if slot ⟨1, "Add_1"⟩ < slot ⟨0, "Parameter_0"⟩ then some (⟨1, "Add_1"⟩, "Add_1")
      else some (⟨0, "Parameter_0"⟩, "Add_1") := rfl
  have hrun : callTensorMap slot sharedNameGraph ["Add_1"] ["out"] =
      (sharedNameGraph.nodes.drop 3).foldlM (runNode slot)
        (match firstVisited slot [(⟨0, "Parameter_0"⟩, "Add_1"), (⟨1, "Add_1"⟩, "Add_1")] with
          | some e => [(⟨0, "Parameter_0"⟩, "Add_1"), (⟨4, "Result_4"⟩, "out"),
              (⟨1, "Add_1"⟩, "Add_1"), (⟨2, "Add_2"⟩, "Add_2")].filter (·.1 != e.1)
          | none => [(⟨0, "Parameter_0"⟩, "Add_1"), (⟨4, "Result_4"⟩, "out"),
              (⟨1, "Add_1"⟩, "Add_1"), (⟨2, "Add_2"⟩, "Add_2")]) := rfl
  rw [hrun, hfirst]
  by_cases h : slot ⟨1, "Add_1"⟩ < slot ⟨0, "Parameter_0"⟩
  · rw [if_pos h]
    exact .inr rfl
  · rw [if_neg h]
    exact .inl rfl

/-- The same graph, with the caller naming its tensors as the graph does: the names are apart, and
the map ends as the tensors that hold data do, here the input and the result. -/
theorem shared_name_graph_apart_refines_liveness :
    initialTensorMap sharedNameGraph ["Parameter_0"] ["Result_4"] =
        .ok [(⟨0, "Parameter_0"⟩, "Parameter_0"), (⟨4, "Result_4"⟩, "Result_4")] ∧
      (∀ a ∈ graphTensors sharedNameGraph
          [(⟨0, "Parameter_0"⟩, "Parameter_0"), (⟨4, "Result_4"⟩, "Result_4")],
        ∀ b ∈ graphTensors sharedNameGraph
          [(⟨0, "Parameter_0"⟩, "Parameter_0"), (⟨4, "Result_4"⟩, "Result_4")],
        mapName [(⟨0, "Parameter_0"⟩, "Parameter_0"), (⟨4, "Result_4"⟩, "Result_4")] a =
          mapName [(⟨0, "Parameter_0"⟩, "Parameter_0"), (⟨4, "Result_4"⟩, "Result_4")] b →
        a = b) ∧
      (∀ n ∈ sharedNameGraph.nodes, ∀ t ∈ n.livenessFreeList,
        mapName [(⟨0, "Parameter_0"⟩, "Parameter_0"), (⟨4, "Result_4"⟩, "Result_4")] t =
          t.name) ∧
      (callTensorMap TensorDesc.id sharedNameGraph ["Parameter_0"] ["Result_4"]).toOption.map
          mapKeys =
        sharedNameGraph.nodes.foldlM liveStep [⟨0, "Parameter_0"⟩, ⟨4, "Result_4"⟩] ∧
      sharedNameGraph.nodes.foldlM liveStep [⟨0, "Parameter_0"⟩, ⟨4, "Result_4"⟩] =
        some [⟨4, "Result_4"⟩] :=
  ⟨rfl, by decide, by decide, call_tensor_map_refines_liveness TensorDesc.id sharedNameGraph
    ["Parameter_0"] ["Result_4"] _ rfl (by decide) (by decide), by decide⟩

/-! ## What the liveness pass promises

`call` trusts the `liveness_free_list`s the liveness pass left on `m_nodes`: a node reads
tensors that the map holds before the loop or that an earlier node wrote, and no node frees a
tensor that a later node reads. Under that contract the tensors that hold data always include
what the next node reads, so `liveStep` never fails, and when the names are apart the node
loop never throws `std::out_of_range`, whatever order the map visits its entries in.
-/

/-- The contract of the liveness pass over `m_nodes`, from the tensors `live₀` of the map before
the loop: every tensor a node reads is in `live₀` or written by an earlier node, and no earlier
node frees it. Parameter nodes are skipped by the loop and by the contract. -/
def ReadsPrecedeFrees (live₀ : List TensorDesc) (ns : List GraphNode) : Prop :=
  ∀ r ∈ ns.enum, r.2.isParameter = false → ∀ t ∈ r.2.inputs,
    (t ∈ live₀ ∨ ∃ d ∈ ns.enum, d.1 < r.1 ∧ d.2.isParameter = false ∧ t ∈ d.2.outputs) ∧
    ∀ f ∈ ns.enum, f.1 < r.1 → f.2.isParameter = false → t ∉ f.2.livenessFreeList

instance (live₀ : List TensorDesc) (ns : List GraphNode) :
    Decidable (ReadsPrecedeFrees live₀ ns) :=
  inferInstanceAs (Decidable (∀ r ∈ ns.enum, r.2.isParameter = false → ∀ t ∈ r.2.inputs,
    (t ∈ live₀ ∨ ∃ d ∈ ns.enum, d.1 < r.1 ∧ d.2.isParameter = false ∧ t ∈ d.2.outputs) ∧
    ∀ f ∈ ns.enum, f.1 < r.1 → f.2.isParameter = false → t ∉ f.2.livenessFreeList))

/-- What the tensors that hold data include after the nodes `pre`: every tensor of `live₀` or
written by a node of `pre` that no node of `pre` has freed. -/
def HoldsWritten (live₀ : List TensorDesc) (pre : List GraphNode) (live : List TensorDesc) :
    Prop :=
  ∀ t, (t ∈ live₀ ∨ ∃ m ∈ pre, m.isParameter = false ∧ t ∈ m.outputs) →
    (∀ m ∈ pre, m.isParameter = false → t ∉ m.livenessFreeList) → t ∈ live

theorem mem_of_mem_enum_append {pre post : List GraphNode} {d : Nat × GraphNode}
    (hd : d ∈ (pre ++ post).enum) (hlt : d.1 < pre.length) : d.2 ∈ pre := by
  have h := List.mem_enum_iff_getElem?.1 hd
  rw [List.getElem?_append_left hlt] at h
  exact List.mem_iff_getElem?.2 ⟨d.1, h⟩

theorem mem_enum_append_length (pre post : List GraphNode) (n : GraphNode) :
    (pre.length, n) ∈ (pre ++ n :: post).enum := by
  rw [List.mem_enum_iff_getElem?, List.getElem?_append_right (Nat.le_refl _), Nat.sub_self,
    List.getElem?_cons_zero]

/-- Under the contract, the loop over `post` after the nodes `pre` never reads a tensor that
holds no data. -/
theorem foldlM_liveStep_of_contract (live₀ : List TensorDesc) :
    ∀ (post pre : List GraphNode) (live : List TensorDesc),
      ReadsPrecedeFrees live₀ (pre ++ post) → HoldsWritten live₀ pre live →
      ∃ L, post.foldlM liveStep live = some L
  | [], _, live, _, _ => ⟨live, rfl⟩
  | n :: post, pre, live, hc, hw => by
      have hread : n.isParameter = false → ∀ t ∈ n.inputs, t ∈ live := fun hp t ht => by
        obtain ⟨hdef, hfree⟩ := hc _ (mem_enum_append_length pre post n) hp t ht
        refine hw t (hdef.imp_right fun ⟨d, hd, hlt, hdp, hdo⟩ =>
          ⟨d.2, mem_of_mem_enum_append hd hlt, hdp, hdo⟩) fun m hm hmp => ?_
        obtain ⟨j, hj⟩ := List.getElem?_of_mem hm
        have hj' : j < pre.length := (List.getElem?_eq_some_iff.1 hj).1
        exact hfree (j, m) (List.mem_enum_iff_getElem?.2 (by
          rw [List.getElem?_append_left hj']; exact hj)) hj' hmp
      have hc' : ReadsPrecedeFrees live₀ ((pre ++ [n]) ++ post) := by
        rwa [List.append_assoc]
      cases hp : n.isParameter
      · have hall : n.inputs.all (· ∈ live) = true :=
          List.all_eq_true.2 fun t ht => decide_eq_true (hread hp t ht)
        rw [List.foldlM_cons]
        simp only [liveStep, hp, Bool.false_eq_true, if_false, hall, if_true]
        refine foldlM_liveStep_of_contract live₀ post (pre ++ [n]) _ hc' fun t hdef hfree => ?_
        have hnf : t ∉ n.livenessFreeList := hfree n (List.mem_append_right _
          (List.mem_singleton_self _)) hp
        refine List.mem_filter.2 ⟨(mem_foldl_liveInsert _ _).2 ?_, decide_eq_true hnf⟩
        rcases hdef with h₀ | ⟨m, hm, hmp, hmo⟩
        · exact .inl (hw t (.inl h₀) fun m hm => hfree m (List.mem_append_left _ hm))
        · rcases List.mem_append.1 hm with hm | hm
          · exact .inl (hw t (.inr ⟨m, hm, hmp, hmo⟩)
              fun m hm => hfree m (List.mem_append_left _ hm))
          · rw [List.mem_singleton.1 hm] at hmo
            exact .inr hmo
      · rw [List.foldlM_cons]
        simp only [liveStep, hp, if_true]
        refine foldlM_liveStep_of_contract live₀ post (pre ++ [n]) live hc' fun t hdef hfree => ?_
        refine hw t (hdef.imp_right fun ⟨m, hm, hmp, hmo⟩ => ⟨m, ?_, hmp, hmo⟩)
          fun m hm => hfree m (List.mem_append_left _ hm)
        rcases List.mem_append.1 hm with hm | hm
        · exact hm
        · rw [List.mem_singleton.1 hm, hp] at hmp
          cases hmp

/-- **The node loop of `call` never throws `std::out_of_range`.** When the names the map gives
the graph's tensors are apart, every freed tensor carries its own name, and the free lists keep
the liveness contract, every lookup of the loop finds its tensor, whatever order
`std::unordered_map` visits its entries in. -/
theorem call_node_loop_never_out_of_range (slot : TensorDesc → Nat) (g : Graph)
    (heInputs heOutputs : List String) (m₀ : TensorMap)
    (hinit : initialTensorMap g heInputs heOutputs = .ok m₀)
    (hinj : ∀ a ∈ graphTensors g m₀, ∀ b ∈ graphTensors g m₀,
      mapName m₀ a = mapName m₀ b → a = b)
    (hown : ∀ n ∈ g.nodes, ∀ t ∈ n.livenessFreeList, mapName m₀ t = t.name)
    (hread : ReadsPrecedeFrees (mapKeys m₀) g.nodes) :
    ∃ m, callTensorMap slot g heInputs heOutputs = .ok m := by
  obtain ⟨L, hL⟩ := foldlM_liveStep_of_contract (mapKeys m₀) g.nodes [] (mapKeys m₀) hread
    fun t ht _ => ht.resolve_right fun ⟨_, hm, _⟩ => absurd hm (List.not_mem_nil _)
  have hmem : ∀ n ∈ g.nodes, ∀ t ∈ n.outputs ++ n.livenessFreeList, t ∈ graphTensors g m₀ :=
    fun n hn t ht => List.mem_append_right _ (List.mem_flatMap.2 ⟨n, hn, ht⟩)
  have h₀ : NamesApart m₀ (graphTensors g m₀) m₀ :=
    ⟨fun e he => (mapName_of_mem (nodup_initialTensorMap hinit) e he).symm,
      fun t ht => List.mem_append_left _ ht, fun _ ht hn => absurd ht hn⟩
  have href := foldlM_runNode_refines slot hinj g.nodes h₀ fun n hn =>
    ⟨fun t ht => hmem n hn t (List.mem_append_left _ ht),
      fun t ht => ⟨hmem n hn t (List.mem_append_right _ ht), hown n hn t ht⟩⟩
  rw [hL] at href
  have hcall : callTensorMap slot g heInputs heOutputs = g.nodes.foldlM (runNode slot) m₀ := by
    simp only [callTensorMap, hinit]
    rfl
  rw [hcall]
  cases h : g.nodes.foldlM (runNode slot) m₀ with
  | error f => rw [h] at href; cases href
  | ok m => exact ⟨m, rfl⟩

theorem shared_name_graph_node_loop_completes :
    ∃ m₀, initialTensorMap sharedNameGraph ["Parameter_0"] ["Result_4"] = .ok m₀ ∧
      (∀ a ∈ graphTensors sharedNameGraph m₀, ∀ b ∈ graphTensors sharedNameGraph m₀,
        mapName m₀ a = mapName m₀ b → a = b) ∧
      (∀ n ∈ sharedNameGraph.nodes, ∀ t ∈ n.livenessFreeList, mapName m₀ t = t.name) ∧
      ReadsPrecedeFrees (mapKeys m₀) sharedNameGraph.nodes ∧
      ∃ m, callTensorMap TensorDesc.id sharedNameGraph ["Parameter_0"] ["Result_4"] = .ok m :=
  ⟨_, rfl, by decide, by decide, by decide, call_node_loop_never_out_of_range TensorDesc.id
    sharedNameGraph ["Parameter_0"] ["Result_4"] _ rfl (by decide) (by decide) (by decide)⟩

end HeTransformer
