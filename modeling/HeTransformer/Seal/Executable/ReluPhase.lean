import HeTransformer.Seal.Executable.Offload

/-!
# The invariant of one ReLU exchange

While the executor runs a ReLU node, its requests, the client's answers and the session
thread's handling of them stay in step: the requests written so far are the answered ones
followed by those still in flight to the client; the answers are the handled ones followed by
those still in flight to the server; and `m_relu_done_count` counts the results handled, whose
values sit at the first queued ciphertext positions of `m_relu_data`, in order. The ledger
records the pieces the requests carry and the two counts; `ReluLedger.Holds` is the invariant,
and there is one lemma for each actor's step.
-/

namespace HeTransformer

/-- The bookkeeping of a ReLU node's exchange with the client. -/
structure ReluLedger where
  /-- The slots each request carries, in writing order. -/
  pieces : List (List HEType)
  /-- How many requests the client has answered. -/
  answered : Nat
  /-- How many answers the session thread has handled. -/
  handled : Nat

/-- The results of the first `n` answers, in order. -/
def resultsOf (rs : List (TCPMessage × List HEType)) (n : Nat) : List HEType :=
  ((rs.take n).map Prod.snd).flatten

/-- The invariant of a ReLU node's exchange once `k` of its requests `msgs` are written. -/
structure ReluLedger.Holds (L : ReluLedger) (kind : ReluKind) (arg : List HEType)
    (msgs : List TCPMessage) (k : Nat) (w : World OffloadThread) : Prop where
  msgs_eq : msgs = L.pieces.map (reluRequest kind)
  pieces_ne : ∀ q ∈ L.pieces, q ≠ []
  pieces_len : L.pieces.flatten.length = (cipherIdx arg).length
  handled_le : L.handled ≤ L.answered
  answered_le : L.answered ≤ k
  k_le : k ≤ L.pieces.length
  toClient_eq : w.toClient = ((L.pieces.take k).drop L.answered).map (reluRequest kind)
  replies_fit : w.replies.map (·.2.length) = (L.pieces.take L.answered).map List.length
  toServer_eq :
    w.toServer = (w.replies.drop L.handled).map (offloadResponse kind.description ·.2)
  idx_eq : w.srv.unknownReluIdx = cipherIdx arg
  done_eq : w.srv.reluDoneCount = (resultsOf w.replies L.handled).length
  writes_eq : w.writes = (cipherIdx arg).take w.srv.reluDoneCount
  length_data : w.srv.reluData.length = arg.length
  plain : ∀ (j : Nat) (t : HEType) (p : HEPlaintext), arg[j]? = some t →
    t.value = .plaintext p → ∃ d : HEType, w.srv.reluData[j]? = some d ∧
      d.value = .plaintext (kind.apply p)
  ciphers : ((cipherIdx arg).take w.srv.reluDoneCount).map (w.srv.reluData[·]?) =
    (resultsOf w.replies L.handled).map some

/-! ## List facts the steps use -/

theorem length_flatten_eq_of_map_length {xs ys : List (List HEType)}
    (h : xs.map List.length = ys.map List.length) : xs.flatten.length = ys.flatten.length := by
  simp only [List.length_flatten, h]

theorem length_flatten_take_le (l : List (List HEType)) (n : Nat) :
    (l.take n).flatten.length ≤ l.flatten.length := by
  conv => rhs; rw [← List.take_append_drop n l]
  simp only [List.flatten_append, List.length_append]
  omega

theorem eq_nil_of_length_flatten {l : List (List HEType)} (hne : ∀ q ∈ l, q ≠ [])
    (h : l.flatten.length = 0) : l = [] := by
  cases l with
  | nil => rfl
  | cons q l =>
      have : q.length = 0 := by simp only [List.flatten_cons, List.length_append] at h; omega
      exact absurd (List.eq_nil_of_length_eq_zero this) (hne q (List.mem_cons_self _ _))

theorem length_resultsOf (L : ReluLedger) {rs : List (TCPMessage × List HEType)}
    (h : rs.map (·.2.length) = (L.pieces.take L.answered).map List.length) {n : Nat}
    (hn : n ≤ L.answered) : (resultsOf rs n).length = (L.pieces.take n).flatten.length := by
  apply length_flatten_eq_of_map_length
  simp only [List.map_map, Function.comp_def, List.map_take, h, List.take_take,
    Nat.min_eq_left hn]

theorem resultsOf_succ {rs : List (TCPMessage × List HEType)} {n : Nat}
    {r : TCPMessage × List HEType} (h : rs[n]? = some r) :
    resultsOf rs (n + 1) = resultsOf rs n ++ r.2 := by
  simp [resultsOf, List.take_succ, h]

/-- Storing `vs` at the queued positions from `n` on leaves the first `n` queued slots as they
were and puts `vs` at the next ones. -/
theorem map_getElem?_fillAt_drop {U : List Nat} {vs data : List HEType} {n : Nat}
    (hnd : U.Nodup) (hlt : ∀ p ∈ U, p < data.length) (hfit : n + vs.length ≤ U.length) :
    (U.take (n + vs.length)).map ((fillAt (U.drop n) vs data)[·]?) =
      (U.take n).map (data[·]?) ++ vs.map some := by
  rw [List.take_add, List.map_append]
  congr 1
  · exact List.map_congr_left fun p hp =>
      getElem?_fillAt_of_not_mem (List.disjoint_take_drop hnd le_rfl hp)
  · rw [← fillAt_take]
    exact map_getElem?_fillAt
      (hnd.sublist ((List.take_sublist _ _).trans (List.drop_sublist _ _)))
      (fun p hp => hlt p (List.mem_of_mem_drop (List.mem_of_mem_take hp))) (by simp; omega)

/-! ## The steps -/

variable {L : ReluLedger} {kind : ReluKind} {arg : List HEType} {msgs : List TCPMessage}
  {k : Nat} {w w' : World OffloadThread}

theorem ReluLedger.Holds.length_replies (hL : L.Holds kind arg msgs k w) :
    w.replies.length = L.answered := by
  simpa [Nat.min_eq_left (hL.answered_le.trans hL.k_le)] using congrArg List.length hL.replies_fit

/-- `m_relu_done_count` never passes the number of queued slots. -/
theorem ReluLedger.Holds.done_le (hL : L.Holds kind arg msgs k w) :
    w.srv.reluDoneCount ≤ w.srv.unknownReluIdx.length := by
  rw [hL.done_eq, length_resultsOf L hL.replies_fit hL.handled_le, hL.idx_eq, ← hL.pieces_len]
  exact length_flatten_take_le _ _

/-- The node starts with nothing in flight and nothing handled. -/
theorem reluLedger_start {c : Config} {s s' : Executable}
    (hs : reluStart c kind arg s = .ok (s', msgs)) (hd : s.reluDoneCount = 0)
    (hsrv : w'.srv = s') (hc : w'.toClient = []) (hsv : w'.toServer = [])
    (hr : w'.replies = []) (hw : w'.writes = []) :
    ∃ L : ReluLedger, L.Holds kind arg msgs 0 w' := by
  obtain ⟨data, pieces, rfl, hlen, hplain, rfl, hne, hsum⟩ := reluStart_ok hs
  have hdone : w'.srv.reluDoneCount = 0 := by rw [hsrv]; exact hd
  refine ⟨⟨pieces, 0, 0⟩, ⟨rfl, hne, hsum, le_rfl, le_rfl, Nat.zero_le _, by rw [hc]; rfl,
    by rw [hr]; rfl, by rw [hsv, hr]; rfl, by rw [hsrv], by rw [hdone, hr]; rfl,
    by rw [hw, hdone]; rfl, by rw [hsrv]; exact hlen, by rw [hsrv]; exact hplain,
    by rw [hdone, hr]; rfl⟩⟩

/-- The executor writes the next request. -/
theorem ReluLedger.Holds.send (hL : L.Holds kind arg msgs k w) {m : TCPMessage}
    (hm : msgs[k]? = some m) (hsrv : w'.srv = w.srv) (hc : w'.toClient = w.toClient ++ [m])
    (hsv : w'.toServer = w.toServer) (hr : w'.replies = w.replies) (hw : w'.writes = w.writes) :
    L.Holds kind arg msgs (k + 1) w' := by
  have hk : k < L.pieces.length := by
    have := (List.getElem?_eq_some_iff.mp hm).1
    rwa [hL.msgs_eq, List.length_map] at this
  have hm' : m = reluRequest kind L.pieces[k] := by
    rw [hL.msgs_eq, List.getElem?_map, List.getElem?_eq_getElem hk] at hm
    exact (Option.some.inj hm).symm
  obtain ⟨msgs_eq, pieces_ne, pieces_len, handled_le, answered_le, -, toClient_eq, replies_fit,
    toServer_eq, idx_eq, done_eq, writes_eq, length_data, plain, ciphers⟩ := hL
  refine ⟨msgs_eq, pieces_ne, pieces_len, handled_le, by omega, hk, ?_, hr ▸ replies_fit,
    hr ▸ hsv ▸ toServer_eq, hsrv ▸ idx_eq, hsrv ▸ hr ▸ done_eq, hsrv ▸ hw ▸ writes_eq,
    hsrv ▸ length_data, hsrv ▸ plain, hsrv ▸ hr ▸ ciphers⟩
  rw [hc, toClient_eq, List.take_succ, List.getElem?_eq_getElem hk, Option.toList_some,
    List.drop_append_of_le_length (by simp; omega), List.map_append, hm', List.map_singleton]

/-- The client answers the oldest request in flight. -/
theorem ReluLedger.Holds.client (hL : L.Holds kind arg msgs k w) {m : TCPMessage}
    {rest : List TCPMessage} {payload : List (List HEType)} {out : List TCPMessage}
    (hcl : w.toClient = m :: rest) (hreply : clientReply m payload = some out)
    (hsrv : w'.srv = w.srv) (hc : w'.toClient = rest) (hsv : w'.toServer = w.toServer ++ out)
    (hr : w'.replies = w.replies ++ offloadReplies m payload) (hw : w'.writes = w.writes) :
    (⟨L.pieces, L.answered + 1, L.handled⟩ : ReluLedger).Holds kind arg msgs k w' := by
  have hlenr := hL.length_replies
  obtain ⟨msgs_eq, pieces_ne, pieces_len, handled_le, answered_le, k_le, toClient_eq,
    replies_fit, toServer_eq, idx_eq, done_eq, writes_eq, length_data, plain, ciphers⟩ := hL
  rw [toClient_eq, List.map_eq_cons_iff] at hcl
  obtain ⟨q, qs, hdrop, rfl, rfl⟩ := hcl
  have ha : L.answered < k := by
    have := congrArg List.length hdrop
    simp at this; omega
  have hq : L.pieces[L.answered]? = some q := by
    have := congrArg (·[0]?) hdrop
    simp only [List.getElem?_drop, List.getElem?_take, Nat.add_zero, List.getElem?_cons_zero]
      at this
    rwa [if_pos ha] at this
  obtain ⟨d, rfl, hd, rfl, hrec⟩ := clientReply_reluRequest hreply
  refine ⟨msgs_eq, pieces_ne, pieces_len, Nat.le_succ_of_le handled_le, ha, k_le, ?_, ?_, ?_,
    hsrv ▸ idx_eq, ?_,
    ?_, hsrv ▸ length_data, hsrv ▸ plain, ?_⟩
  · rw [hc, ← List.drop_drop, hdrop]; rfl
  · rw [hr, hrec, List.map_append, replies_fit, List.take_succ, hq]
    simp [hd]
  · rw [hsv, hr, hrec, toServer_eq, List.drop_append_of_le_length (by dsimp only; omega)]
    simp
  · rw [hsrv, hr, done_eq, resultsOf, resultsOf,
      List.take_append_of_le_length (by dsimp only; omega)]
  · rw [hw, hsrv, writes_eq]
  · rw [hsrv, hr, ciphers, resultsOf, resultsOf,
      List.take_append_of_le_length (by dsimp only; omega)]

/-- The session thread handles the oldest answer in flight: it is the next ReLU answer, its
results fit the queued indices, and handling it keeps the invariant with one more answer
handled. -/
theorem ReluLedger.Holds.session {c : Config} (hL : L.Holds kind arg msgs k w) {m : TCPMessage}
    {ms : List TCPMessage} (hsv : w.toServer = m :: ms) (hdue : inferenceShapeDue w.srv = false) :
    ∃ s', handleMessage c w.srv m = .ok (s', []) ∧ inferenceShapeDue s' = false ∧
      s'.maxPoolData = w.srv.maxPoolData ∧
      (⟨L.pieces, L.answered, L.handled + 1⟩ : ReluLedger).Holds kind arg msgs k
        { w with srv := s', toServer := ms, toClient := w.toClient ++ [],
                 writes := w.writes ++ reluWrites w.srv m } := by
  have hlenr := hL.length_replies
  obtain ⟨msgs_eq, pieces_ne, pieces_len, handled_le, answered_le, k_le, toClient_eq,
    replies_fit, toServer_eq, idx_eq, done_eq, writes_eq, length_data, plain, ciphers⟩ := hL
  rw [toServer_eq, List.map_eq_cons_iff] at hsv
  obtain ⟨r, rs, hdrop, rfl, rfl⟩ := hsv
  have hr : w.replies[L.handled]? = some r := by
    have := congrArg (·[0]?) hdrop
    simpa only [List.getElem?_drop, Nat.add_zero, List.getElem?_cons_zero] using this
  have hha : L.handled < L.answered := hlenr ▸ (List.getElem?_eq_some_iff.mp hr).1
  have hsucc := resultsOf_succ hr
  have hfit : w.srv.reluDoneCount + r.2.length ≤ w.srv.unknownReluIdx.length :=
    calc w.srv.reluDoneCount + r.2.length = (resultsOf w.replies (L.handled + 1)).length := by
          rw [hsucc, List.length_append, done_eq]
      _ = (L.pieces.take (L.handled + 1)).flatten.length := length_resultsOf L replies_fit hha
      _ ≤ L.pieces.flatten.length := length_flatten_take_le _ _
      _ = w.srv.unknownReluIdx.length := by rw [pieces_len, idx_eq]
  have hlt : ∀ p ∈ w.srv.unknownReluIdx, p < w.srv.reluData.length := fun p hp => by
    rw [length_data]; exact lt_of_mem_cipherIdx (idx_eq ▸ hp)
  refine ⟨_, handleMessage_reluResponse kind hdue hfit hlt, hdue, rfl, msgs_eq, pieces_ne,
    pieces_len, hha, answered_le, k_le, by simpa using toClient_eq, replies_fit, ?_, idx_eq, ?_,
    ?_, ?_, ?_, ?_⟩ <;> dsimp only
  · rw [← List.drop_drop, hdrop]; rfl
  · rw [hsucc, List.length_append, done_eq]
  · rw [reluWrites_reluResponse, writes_eq, idx_eq, List.take_add]
  · rw [length_fillAt, length_data]
  · intro j t p hj hp
    obtain ⟨d, hd, hdv⟩ := plain j t p hj hp
    refine ⟨d, ?_, hdv⟩
    rw [getElem?_fillAt_of_not_mem, hd]
    intro hmem
    obtain ⟨t', ht', hc⟩ := mem_cipherIdx.mp (idx_eq ▸ List.mem_of_mem_drop hmem)
    rw [hj, Option.some.injEq] at ht'
    subst ht'
    simp [HEType.isCiphertext, HEType.isPlaintext, hp] at hc
  · rw [idx_eq, map_getElem?_fillAt_drop (nodup_cipherIdx arg) (idx_eq ▸ hlt) (idx_eq ▸ hfit),
      ciphers, hsucc, List.map_append]

/-- Once `m_relu_done_count` reaches the number of queued slots after the last request, every
request is answered and every answer handled: nothing is in flight, the session thread has
written exactly the queued positions, and they hold the answers' results in order. -/
theorem ReluLedger.Holds.finished (hL : L.Holds kind arg msgs msgs.length w)
    (hd : w.srv.reluDoneCount = w.srv.unknownReluIdx.length) :
    w.toClient = [] ∧ w.toServer = [] ∧ w.writes = cipherIdx arg ∧
      (cipherIdx arg).map (w.srv.reluData[·]?) = (w.replies.map Prod.snd).flatten.map some := by
  have hlenr := hL.length_replies
  obtain ⟨rfl, pieces_ne, pieces_len, handled_le, answered_le, k_le, toClient_eq,
    replies_fit, toServer_eq, idx_eq, done_eq, writes_eq, -, -, ciphers⟩ := hL
  rw [idx_eq] at hd
  have hall : L.pieces.length ≤ L.handled := by
    have hrest : (L.pieces.drop L.handled).flatten.length = 0 := by
      have := length_resultsOf L replies_fit handled_le
      rw [← List.take_append_drop L.handled L.pieces, List.flatten_append,
        List.length_append] at pieces_len
      omega
    simpa using eq_nil_of_length_flatten (fun q hq => pieces_ne q (List.mem_of_mem_drop hq)) hrest
  rw [List.length_map] at answered_le toClient_eq
  have hh : L.handled = w.replies.length := by omega
  refine ⟨?_, ?_, ?_, ?_⟩
  · rw [toClient_eq, show L.answered = L.pieces.length by omega]; simp
  · rw [toServer_eq, hh]; simp
  · rw [writes_eq, hd, List.take_length]
  · rw [hd, List.take_length] at ciphers
    rw [ciphers, resultsOf, hh, List.take_length]

/-- After the last request, with nothing in flight either way, `m_relu_done_count` has reached
the number of queued slots: every answer is handled. -/
theorem ReluLedger.Holds.done_of_quiet (hL : L.Holds kind arg msgs msgs.length w)
    (hc : w.toClient = []) (hsv : w.toServer = []) :
    w.srv.reluDoneCount = w.srv.unknownReluIdx.length := by
  have hlenr := hL.length_replies
  obtain ⟨rfl, -, pieces_len, handled_le, answered_le, -, toClient_eq, replies_fit,
    toServer_eq, idx_eq, done_eq, -, -, -, -⟩ := hL
  rw [List.length_map] at answered_le toClient_eq
  have ha : L.pieces.length ≤ L.answered := by
    have := congrArg List.length (toClient_eq.symm.trans hc)
    simp only [List.length_map, List.length_drop, List.length_take, List.length_nil] at this
    omega
  have hh : w.replies.length ≤ L.handled := by
    have := congrArg List.length (toServer_eq.symm.trans hsv)
    simp only [List.length_map, List.length_drop, List.length_nil] at this
    omega
  rw [done_eq, length_resultsOf L replies_fit handled_le, idx_eq, ← pieces_len,
    List.take_of_length_le (by omega)]

end HeTransformer
