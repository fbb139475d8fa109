import HeTransformer.Seal.Executable.Offload

/-!
# The invariant of one MaxPool exchange

`handle_server_max_pool_op` sends one request per maximize list and waits on `m_max_pool_cond`
after each; the session thread appends each answer to `m_max_pool_data` and raises
`m_max_pool_done`, and the executor lowers it again before the next request. Before each
request (`MaxPoolSending`) the answers to all earlier requests are in, in order, and nothing is
in flight. While the executor waits (`MaxPoolWaiting`), the round of the current request is in
one of three phases (`MaxPoolRound`): the request is in flight, its answer is in flight, or the
answer is handled. There is one lemma for each move an actor can make in a phase.
-/

namespace HeTransformer

/-- Each answer `rs[i]` is the client's one result to the request built from `lists[i]`. -/
def MaxPoolAnswers (c : Config) (arg : List HEType) (rs : List (TCPMessage × List HEType))
    (lists : List (List Nat)) : Prop :=
  List.Forall₂ (fun r l => maxPoolListRequest c arg l = .ok r.1 ∧ ∃ x, r.2 = [x]) rs lists

/-- The invariant when the executor is about to send the request of `lists[k]`. -/
structure MaxPoolSending (c : Config) (arg : List HEType) (lists : List (List Nat)) (k : Nat)
    (w : World OffloadThread) : Prop where
  k_le : k ≤ lists.length
  answers : MaxPoolAnswers c arg w.replies (lists.take k)
  toClient_eq : w.toClient = []
  toServer_eq : w.toServer = []
  done_eq : w.srv.maxPoolDone = false
  data_eq : w.srv.maxPoolData = (w.replies.map Prod.snd).flatten

/-- Where the round of the request `m` stands, after the answers `rs` to the earlier
requests. -/
inductive MaxPoolRound (m : TCPMessage) (rs : List (TCPMessage × List HEType))
    (w : World OffloadThread) : Prop
  /-- The request is in flight to the client. -/
  | sent : w.replies = rs → w.toClient = [m] → w.toServer = [] → w.srv.maxPoolDone = false →
      w.srv.maxPoolData = (rs.map Prod.snd).flatten → MaxPoolRound m rs w
  /-- The client's answer `x` is in flight to the server. -/
  | answered (x : HEType) : w.replies = rs ++ [(m, [x])] → w.toClient = [] →
      w.toServer = [offloadResponse "MaxPool" [x]] → w.srv.maxPoolDone = false →
      w.srv.maxPoolData = (rs.map Prod.snd).flatten → MaxPoolRound m rs w
  /-- The session thread has handled the answer `x`. -/
  | handled (x : HEType) : w.replies = rs ++ [(m, [x])] → w.toClient = [] → w.toServer = [] →
      w.srv.maxPoolDone = true → w.srv.maxPoolData = (rs.map Prod.snd).flatten ++ [x] →
      MaxPoolRound m rs w

/-- The invariant while the executor waits for the answer to the request of `lists[k]`. -/
def MaxPoolWaiting (c : Config) (arg : List HEType) (lists : List (List Nat)) (k : Nat)
    (w : World OffloadThread) : Prop :=
  ∃ l m rs, lists[k]? = some l ∧ maxPoolListRequest c arg l = .ok m ∧
    MaxPoolAnswers c arg rs (lists.take k) ∧ MaxPoolRound m rs w

/-- `data` holds, in order, the results of the answers `rs` to the requests of `lists`: one
element per list, the `i`-th being the one result of the client's answer to the request built
from `lists[i]`. -/
def HoldsAnswers (c : Config) (arg data : List HEType) (rs : List (TCPMessage × List HEType))
    (lists : List (List Nat)) : Prop :=
  data.length = lists.length ∧ ∀ (i : Nat) (l : List Nat), lists[i]? = some l →
    ∃ m x, maxPoolListRequest c arg l = .ok m ∧ rs[i]? = some (m, [x]) ∧ data[i]? = some x

/-- The results of answers that fit the requests hold those answers, in order. -/
theorem MaxPoolAnswers.holdsAnswers {c : Config} {arg : List HEType}
    {rs : List (TCPMessage × List HEType)} {lists : List (List Nat)}
    (h : MaxPoolAnswers c arg rs lists) :
    HoldsAnswers c arg (rs.map Prod.snd).flatten rs lists := by
  induction h with
  | nil => exact ⟨rfl, fun i l hl => by simp at hl⟩
  | @cons r l rs lists hr _ ih =>
      obtain ⟨hm, x, hx⟩ := hr
      obtain ⟨hlen, hget⟩ := ih
      refine ⟨by simp [hx, hlen], fun i l' hl => ?_⟩
      cases i with
      | zero =>
          simp only [List.getElem?_cons_zero, Option.some.injEq] at hl
          subst hl
          exact ⟨r.1, x, hm, by simp [← hx], by simp [hx]⟩
      | succ i => simpa [hx] using hget i l' (by simpa using hl)

/-- A MaxPool request carries one `pb::HETensor` of ciphertexts under the function
`"MaxPool"`. -/
theorem maxPoolListRequest_ok {c : Config} {arg : List HEType} {l : List Nat} {m : TCPMessage}
    (h : maxPoolListRequest c arg l = .ok m) : ∃ piece, m = maxPoolRequest piece := by
  simp only [maxPoolListRequest, bind, Except.bind] at h
  split at h
  · cases h
  · split at h
    · cases h
    · split at h
      · exact ⟨_, (Except.ok.inj h).symm⟩
      · cases h

theorem mapM_ok_forall₂ {α β ε : Type} {f : α → Except ε β} :
    ∀ {l : List α} {bs : List β}, l.mapM f = .ok bs → List.Forall₂ (fun b a => f a = .ok b) bs l
  | [], bs, h => by
      cases h
      exact .nil
  | a :: l, bs, h => by
      rw [List.mapM_cons] at h
      cases ha : f a with
      | error e => rw [ha] at h; cases h
      | ok b =>
          rw [ha] at h
          cases hl : l.mapM f with
          | error e => simp only [hl, bind, Except.bind] at h; cases h
          | ok bs' =>
              simp only [hl, bind, Except.bind, pure, Except.pure, Except.ok.injEq] at h
              exact h ▸ .cons ha (mapM_ok_forall₂ hl)

/-- The request for a maximize list carries, in its one `pb::HETensor`, the argument's slots at
the list's indices, in the list's order, and no other: one slot per index, and at least one. -/
theorem maxPoolListRequest_content {c : Config} {arg : List HEType} {l : List Nat}
    {m : TCPMessage} (h : maxPoolListRequest c arg l = .ok m) :
    ∃ piece, m = maxPoolRequest piece ∧ piece ≠ [] ∧
      List.Forall₂ (fun t i => arg[i]? = some t) piece l := by
  simp only [maxPoolListRequest, bind, Except.bind] at h
  split at h
  · cases h
  · next batch hbatch =>
      have hget : List.Forall₂ (fun t i => arg[i]? = some t) batch l :=
        (mapM_ok_forall₂ hbatch).imp fun t i hti => by
          split at hti
          · next t' ht' => cases hti; exact ht'
          · cases hti
      split at h
      · cases h
      · next hne =>
          split at h
          · next piece hpiece =>
              have hflat := flatten_batchLoop c.pbTensorSlots [] batch
              rw [← writeToPbTensors, hpiece] at hflat
              simp only [List.flatten_cons, List.flatten_nil, List.append_nil,
                List.nil_append] at hflat
              subst hflat
              exact ⟨piece, (Except.ok.inj h).symm, fun he => hne (by simp [he]), hget⟩
          · cases h

/-! ## The steps -/

variable {c : Config} {arg : List HEType} {lists : List (List Nat)} {k : Nat}
  {w w' : World OffloadThread}

/-- The node starts with nothing answered. -/
theorem maxPoolSending_start (hc : w'.toClient = []) (hsv : w'.toServer = [])
    (hr : w'.replies = []) (hd : w'.srv.maxPoolDone = false) (hdata : w'.srv.maxPoolData = []) :
    MaxPoolSending c arg lists 0 w' :=
  ⟨Nat.zero_le _, by rw [hr]; exact .nil, hc, hsv, hd, by rw [hdata, hr]; rfl⟩

/-- The executor sends the request of `lists[k]`. -/
theorem MaxPoolSending.send (hS : MaxPoolSending c arg lists k w) {l : List Nat}
    {m : TCPMessage} (hl : lists[k]? = some l) (hm : maxPoolListRequest c arg l = .ok m)
    (hsrv : w'.srv = w.srv) (hc : w'.toClient = w.toClient ++ [m])
    (hsv : w'.toServer = w.toServer) (hr : w'.replies = w.replies) :
    MaxPoolWaiting c arg lists k w' :=
  ⟨l, m, w.replies, hl, hm, hS.answers,
    .sent hr (by rw [hc, hS.toClient_eq]; rfl) (hsv.trans hS.toServer_eq)
      (hsrv ▸ hS.done_eq) (hsrv ▸ hS.data_eq)⟩

/-- Past the last maximize list, every request has been answered. -/
theorem MaxPoolSending.finish (hS : MaxPoolSending c arg lists k w) (hl : lists[k]? = none) :
    MaxPoolAnswers c arg w.replies lists := by
  have := hS.answers
  rwa [List.take_of_length_le (List.getElem?_eq_none_iff.mp hl)] at this

/-- The client answers the request in flight with one result. -/
theorem MaxPoolRound.client {m : TCPMessage} {rs : List (TCPMessage × List HEType)}
    (hR : MaxPoolRound m rs w) (hm : ∃ piece, m = maxPoolRequest piece) {m' : TCPMessage}
    {ms : List TCPMessage} {payload : List (List HEType)} {out : List TCPMessage}
    (hcl : w.toClient = m' :: ms) (hreply : clientReply m' payload = some out)
    (hsrv : w'.srv = w.srv) (hc : w'.toClient = ms) (hsv : w'.toServer = w.toServer ++ out)
    (hr : w'.replies = w.replies ++ offloadReplies m' payload) : MaxPoolRound m rs w' := by
  cases hR with
  | sent hrs hcm hsv₀ hd hdata =>
      rw [hcm, List.cons.injEq] at hcl
      obtain ⟨rfl, rfl⟩ := hcl
      obtain ⟨piece, rfl⟩ := hm
      obtain ⟨x, rfl, rfl, hrec⟩ := clientReply_maxPoolRequest hreply
      exact .answered x (by rw [hr, hrec, hrs]) hc (by rw [hsv, hsv₀]; rfl) (hsrv ▸ hd)
        (hsrv ▸ hdata)
  | answered _ _ hcm => simp [hcm] at hcl
  | handled _ _ hcm => simp [hcm] at hcl

/-- The session thread handles the answer in flight: `m_max_pool_data` gets it and
`m_max_pool_done` is raised; no other member changes. -/
theorem MaxPoolRound.session {m : TCPMessage} {rs : List (TCPMessage × List HEType)}
    (hR : MaxPoolRound m rs w) {m' : TCPMessage} {ms : List TCPMessage}
    (hsv : w.toServer = m' :: ms) (hdue : inferenceShapeDue w.srv = false) :
    ∃ x, handleMessage c w.srv m' =
        .ok ({ w.srv with maxPoolData := w.srv.maxPoolData ++ [x], maxPoolDone := true }, []) ∧
      MaxPoolRound m rs
        { w with srv := { w.srv with maxPoolData := w.srv.maxPoolData ++ [x], maxPoolDone := true },
                 toServer := ms, toClient := w.toClient ++ [],
                 writes := w.writes ++ reluWrites w.srv m' } := by
  cases hR with
  | sent _ _ hsv₀ => simp [hsv₀] at hsv
  | answered x hrs hc hsv₀ _ hdata =>
      rw [hsv₀, List.cons.injEq] at hsv
      obtain ⟨rfl, rfl⟩ := hsv
      exact ⟨x, handleMessage_maxPoolResponse x hdue,
        .handled x hrs (by simpa using hc) rfl rfl (by simp [hdata])⟩
  | handled _ _ _ hsv₀ => simp [hsv₀] at hsv

/-- When the wait returns, the answers to every request sent so far are in `m_max_pool_data`,
in request order, and nothing is in flight. -/
theorem MaxPoolWaiting.done (hW : MaxPoolWaiting c arg lists k w)
    (hd : w.srv.maxPoolDone = true) :
    k < lists.length ∧ MaxPoolAnswers c arg w.replies (lists.take (k + 1)) ∧
      w.srv.maxPoolData = (w.replies.map Prod.snd).flatten ∧ w.toClient = [] ∧
      w.toServer = [] := by
  obtain ⟨l, m, rs, hl, hm, hans, hR⟩ := hW
  cases hR with
  | sent _ _ _ hd₀ => simp [hd₀] at hd
  | answered _ _ _ _ hd₀ => simp [hd₀] at hd
  | handled x hrs hc hsv _ hdata =>
      refine ⟨(List.getElem?_eq_some_iff.mp hl).1, ?_, by simp [hdata, hrs], hc, hsv⟩
      rw [hrs, List.take_succ, hl, Option.toList_some]
      exact List.rel_append hans (.cons ⟨hm, x, rfl⟩ .nil)

/-- The executor passes the wait and lowers `m_max_pool_done` for the next request. -/
theorem MaxPoolWaiting.next (hW : MaxPoolWaiting c arg lists k w)
    (hd : w.srv.maxPoolDone = true)
    (hsrv : w'.srv = { w.srv with maxPoolDone := false }) (hc : w'.toClient = w.toClient ++ [])
    (hsv : w'.toServer = w.toServer) (hr : w'.replies = w.replies) :
    MaxPoolSending c arg lists (k + 1) w' := by
  obtain ⟨hk, hans, hdata, hc₀, hsv₀⟩ := hW.done hd
  exact ⟨hk, hr ▸ hans, by rw [hc, hc₀]; rfl, hsv.trans hsv₀, by rw [hsrv],
    by rw [hsrv, hr]; exact hdata⟩

end HeTransformer
