/-
# MultiPaxosDB.Replicas — a leader and a replica through the same rounds.

The leader's rounds are seen from outside: as the accepts and commits it sends to the replica (`mail`), which
come in pairs as long as no round fails in its accept phase.  The replica handles the same pairs.  In between
either of them may do anything else — take requests, promise, lose a prepare phase, hear decisions — as long as
it keeps to its role (`leads`, `follows`).

Both are systems that run in rounds (`Lib.Bracketed`), and both track one `Copy` (`lead_run`, `follow_run`).
`replicas_alike` compares the two at the end.  It asks more of the start than that logs, balances and
`balance_applied` agree: a tid that means two things is skipped by one server and committed by the other
(`replicas_differ`), and a prepared transaction that one of them has already timed out is committed by the other
alone (`timed_out_on_one`).
-/
import MultiPaxosDB.Copies
import MultiPaxosDB.Lib.Brackets
import MultiPaxosDB.Wire

namespace MultiPaxosDB

open Lib

/-! ## Servers between two events of their life -/

namespace ServerImpl

variable {c : Constants} {serverId : Int} {s : ServerImpl}

/-- What every server is between two events of its life. -/
structure Alive (c : Constants) (serverId : Int) (s : ServerImpl) : Prop where
  identity : s.serverId = serverId
  stubs : s.stubs = stubsOf c serverId
  constants : s.ledger.constants = c
  clusterId : s.ledger.clusterId = getClusterIdFromServerId c serverId
  running : s.Running
  counted : s.ledger.Counted

theorem Alive.fresh (c : Constants) (serverId : Int) : (ServerImpl.fresh c serverId).Alive c serverId :=
  ⟨rfl, rfl, rfl, rfl, fun _ => rfl, .fresh c _⟩

theorem Alive.handle (h : s.Alive c serverId) (e : Event) : (s.handle e).Alive c serverId := by
  obtain ⟨hid, hstubs⟩ := (s.handle_moves e).identity
  obtain ⟨hconst, hcluster⟩ := s.handle_shard e
  exact ⟨hid.trans h.identity, hstubs.trans h.stubs, hconst.trans h.constants, hcluster.trans h.clusterId,
    (handle_takes h.running e).running, counted_handle h.counted e⟩

theorem Alive.restart (h : s.Alive c serverId) : s.restart.Alive c serverId where
  identity := h.identity
  stubs := by
    show stubsOf s.ledger.constants s.serverId = _
    rw [h.constants, h.identity]
  constants := h.constants
  clusterId := by
    show getClusterIdFromServerId s.ledger.constants s.serverId = _
    rw [h.constants, h.identity]
  running := fun _ => rfl
  counted := s.counted_restart

theorem alive_life (c : Constants) (serverId : Int) (es : List LifeEvent) : (life c serverId es).Alive c serverId := by
  refine List.foldlRecOn (motive := Alive c serverId) es live (.fresh c serverId) ?_
  intro s hs ev _
  cases ev with
  | event e => exact hs.handle e
  | restart => exact hs.restart

theorem Alive.shard (h : s.Alive c serverId) :
    s.ledger.isClientInCluster = fun a => isClientInCluster c a (getClusterIdFromServerId c serverId) := by
  funext a
  rw [Ledger.isClientInCluster, h.constants, h.clusterId]

end ServerImpl

/-! ## The two roles -/

/-- The messages of a round among the RPCs. -/
def RpcReq.ofRound : RpcReq → List RpcReq
  | .accept a => [.accept a]
  | .commit m => [.commit m]
  | _ => []

/-- The message of a round that an event brings. -/
def Event.ofRound : Event → List RpcReq
  | .acceptCall a => [.accept a]
  | .commitCall m => [.commit m]
  | _ => []

/-- The decision that an event brings. -/
def Event.decisions : Event → List (Int × Bool)
  | .input (.tpcDecision tid isCommit) => [(tid, isCommit)]
  | _ => []

namespace ServerImpl

/-- What server `j` is sent of the rounds of a run. -/
def mail (j : Int) (s : ServerImpl) (es : List Event) : List RpcReq :=
  trace handle (fun s e => sentTo RpcReq.ofRound (s.handle e).outbox j) s es

/-- The accepts and commits of whole rounds. -/
def wholeRounds (rounds : List AcceptReq) : List RpcReq :=
  brackets .accept (fun a => .commit { ballot := a.ballot }) rounds

/-- A decision reaches the server after the prepare, and is the one decision on that tid. -/
def hears (verdict : Int → Bool) (s : ServerImpl) (tid : Int) (isCommit : Bool) : Prop :=
  s.iAmDisconnected = false ∧ isCommit = verdict tid ∧
    ∃ e ∈ s.ledger.log, e.tid = tid ∧ e.type = .cross ∧ e.status = .prepared

instance (verdict : Int → Bool) (s : ServerImpl) (tid : Int) (isCommit : Bool) :
    Decidable (s.hears verdict tid isCommit) :=
  inferInstanceAs (Decidable (_ ∧ _ ∧ _))

/-- A leader for the time being: it takes requests that satisfy `Q`, acts on nobody else's round, and neither
times a transaction out nor syncs. -/
def leads (Q : RequestPred) (verdict : Int → Bool) (s : ServerImpl) : Event → Prop
  | .input (.transfer _ request) => Q false request.tid request.txn
  | .input (.tpcPrepare _ request) => Q true request.tid request.txn
  | .input (.tpcDecision tid isCommit) => s.hears verdict tid isCommit
  | .input .sweep => s.ledger.timesOut = []
  | .acceptCall request => s.iAmDisconnected = true ∨ s.accepts request = false
  | .commitCall request => s.iAmDisconnected = true ∨ s.commits request = false
  | .syncReply _ _ => False
  | _ => True

instance (Q : RequestPred) [∀ isCross t txn, Decidable (Q isCross t txn)] (verdict : Int → Bool) (s : ServerImpl)
    : (e : Event) → Decidable (s.leads Q verdict e)
  | .input (.transfer _ request) => inferInstanceAs (Decidable (Q false request.tid request.txn))
  | .input (.tpcPrepare _ request) => inferInstanceAs (Decidable (Q true request.tid request.txn))
  | .input (.tpcDecision tid isCommit) => inferInstanceAs (Decidable (s.hears verdict tid isCommit))
  | .input .sweep => inferInstanceAs (Decidable (_ = _))
  | .acceptCall _ | .commitCall _ => inferInstanceAs (Decidable (_ ∨ _))
  | .syncReply _ _ => .isFalse id
  | .input (.disconnect _) | .input (.tick _) => .isTrue trivial
  | .prepareCall _ | .syncCall _ | .prepareReply _ _ _ | .acceptReply _ _ _ => .isTrue trivial

/-- A replica for the time being: it has promised the ballots whose accepts and commits it handles, leads no round
of its own, and neither times a transaction out nor syncs. -/
def follows (verdict : Int → Bool) (s : ServerImpl) : Event → Prop
  | .input (.tpcDecision tid isCommit) => s.hears verdict tid isCommit
  | .input .sweep => s.ledger.timesOut = []
  | .acceptCall request => s.iAmDisconnected = false ∧ s.accepts request = true
  | .commitCall request => s.iAmDisconnected = false ∧ s.promisedNum.num = request.ballot.num
  | .prepareReply _ _ _ => s.awaitPrepareDecision = false
  | .acceptReply _ _ _ => s.awaitAcceptDecision = false
  | .syncReply _ _ => False
  | _ => True

instance (verdict : Int → Bool) (s : ServerImpl) : (e : Event) → Decidable (s.follows verdict e)
  | .input (.tpcDecision tid isCommit) => inferInstanceAs (Decidable (s.hears verdict tid isCommit))
  | .input .sweep | .prepareReply _ _ _ | .acceptReply _ _ _ => inferInstanceAs (Decidable (_ = _))
  | .acceptCall _ | .commitCall _ => inferInstanceAs (Decidable (_ ∧ _))
  | .syncReply _ _ => .isFalse id
  | .input (.transfer _ _) | .input (.tpcPrepare _ _) | .input (.disconnect _) | .input (.tick _) => .isTrue trivial
  | .prepareCall _ | .syncCall _ => .isTrue trivial

/-! ## What happens outside the rounds -/

/-- Without operations a chain moves nothing that a ledger is read for. -/
theorem frame_of_chain {l l' : Ledger} (h : Relation.ReflTransGen (LedgerMove fun _ => False) l l') : l.Frame l' := by
  refine reflTransGen_invariant (motive := l.Frame) ?_ h (.touch _ _ _)
  intro m m' hmove hm
  cases hmove with
  | op o ho => exact ho.elim
  | frame hf => exact hm.trans hf

theorem handle_decision {s : ServerImpl} (hconn : s.iAmDisconnected = false) (tid : Int) (isCommit : Bool) :
    s.handle (.input (.tpcDecision tid isCommit)) =
      { s with outbox := [], ledger := s.ledger.processTpcDecision tid isCommit } := by
  show processTpcDecision { s with outbox := [] } tid isCommit = _
  rw [processTpcDecision, if_neg (by rw [hconn]; exact Bool.false_ne_true)]

theorem frame_sweep {l : Ledger} (h : l.timesOut = []) : l.Frame l.sweep := by
  refine frame_of_chain (sweep_chain ?_)
  rw [h]
  exact fun _ hmem => absurd hmem List.not_mem_nil

end ServerImpl

theorem Event.decision_or_none (e : Event) :
    (∃ tid isCommit, e = .input (.tpcDecision tid isCommit)) ∨ e.decisions = [] := by
  cases e with
  | input i =>
    cases i with
    | tpcDecision tid isCommit => exact .inl ⟨tid, isCommit, rfl⟩
    | _ => exact .inr rfl
  | _ => exact .inr rfl

/-- The event tells the ledger a decision, or nothing. -/
def Event.Tells (l l' : Ledger) : Event → Prop
  | .input (.tpcDecision tid isCommit) => l' = l.processTpcDecision tid isCommit
  | _ => l.Frame l'

theorem Event.tells_iff_frame {e : Event} {l l' : Ledger} (h : e.decisions = []) : e.Tells l l' ↔ l.Frame l' := by
  cases e with
  | input i =>
    cases i with
    | tpcDecision tid isCommit => cases h
    | _ => exact Iff.rfl
  | _ => exact Iff.rfl

theorem Ledger.Tracks.tells {txnOf : Int → Transaction} {inShard verdict : Int → Bool} {l₀ : Ledger} {x : Copy}
    {heard : List (Int × Bool)} {s u : ServerImpl} {e : Event}
    (h : Tracks txnOf inShard verdict l₀ x heard s.ledger) (htells : e.Tells s.ledger u.ledger)
    (hhears : ∀ tid isCommit, e = .input (.tpcDecision tid isCommit) → s.hears verdict tid isCommit) :
    Tracks txnOf inShard verdict l₀ x (heard ++ e.decisions) u.ledger := by
  rcases e.decision_or_none with ⟨tid, isCommit, rfl⟩ | hnone
  · obtain ⟨-, hv, y, hy, htid, -, hs⟩ := hhears tid isCommit rfl
    rw [show u.ledger = s.ledger.processTpcDecision tid isCommit from htells]
    exact h.processTpcDecision hv ⟨y, hy, htid, hs⟩
  · rw [hnone, List.append_nil]
    exact h.frame ((Event.tells_iff_frame hnone).mp htells)

/-! ## The leader -/

namespace ServerImpl

/-- What a handled event is to the rounds of a leader: `Leading s e u ms` if it takes the leader from `s` to `u`
and sends `ms` of a round. -/
inductive Leading (s : ServerImpl) (e : Event) (u : ServerImpl) : List RpcReq → Prop
  | rests : s.awaitAcceptDecision = false → u.awaitAcceptDecision = false → e.Tells s.ledger u.ledger →
      Leading s e u []
  | empties : s.awaitAcceptDecision = false → u.awaitAcceptDecision = false → e.decisions = [] →
      (admitAll s.ledger s.promisedNum s.current).kept = [] →
      u.ledger = (admitAll s.ledger s.promisedNum s.current).ledger → Leading s e u []
  | proposes : s.awaitAcceptDecision = false → u.awaitAcceptDecision = true → u.awaitPrepareDecision = false →
      e.decisions = [] → u.acceptNum = s.promisedNum →
      u.current = (admitAll s.ledger s.promisedNum s.current).kept → u.current ≠ [] →
      u.ledger = (admitAll s.ledger s.promisedNum s.current).ledger → Leading s e u [.accept s.proposal]
  | waits : s.awaitAcceptDecision = true → u.awaitAcceptDecision = true → u.awaitPrepareDecision = false →
      u.acceptNum = s.acceptNum → u.current = s.current → e.Tells s.ledger u.ledger → Leading s e u []
  | commits : s.awaitAcceptDecision = true → u.awaitAcceptDecision = false → e.decisions = [] →
      u.ledger = s.current.foldl (commitEntry s.acceptNum) s.ledger →
      Leading s e u [.commit { ballot := s.acceptNum }]
  | aborts : s.awaitAcceptDecision = true → u.awaitAcceptDecision = false → Leading s e u []

section Leading

variable {s t u : ServerImpl} {e : Event} {Q : RequestPred} {verdict : Int → Bool} {j : Int}

/-- A leader waits for one quorum at a time. -/
theorem idle_of_preparing (hphase : s.awaitAcceptDecision = true → s.awaitPrepareDecision = false)
    (hprepare : s.awaitPrepareDecision = true) : s.awaitAcceptDecision = false := by
  cases ha : s.awaitAcceptDecision with
  | false => rfl
  | true =>
    rw [hphase ha] at hprepare
    cases hprepare

/-- A change of nothing that the rounds look at. -/
theorem Leading.same (hphase : s.awaitAcceptDecision = true → s.awaitPrepareDecision = false)
    (haccept : u.awaitAcceptDecision = s.awaitAcceptDecision)
    (hprepare : s.awaitAcceptDecision = true → u.awaitPrepareDecision = s.awaitPrepareDecision)
    (hnum : u.acceptNum = s.acceptNum) (hcur : u.current = s.current) (htells : e.Tells s.ledger u.ledger) :
    Leading s e u [] := by
  cases ha : s.awaitAcceptDecision with
  | false => exact .rests ha (haccept.trans ha) htells
  | true => exact .waits ha (haccept.trans ha) ((hprepare ha).trans (hphase ha)) hnum hcur htells

theorem Leading.of_cleared {ms : List RpcReq} (h : Leading { s with outbox := [] } e u ms) : Leading s e u ms := by
  cases h with
  | rests ha hb htells => exact .rests ha hb htells
  | empties ha hb hnone hkept hledger => exact .empties ha hb hnone hkept hledger
  | proposes ha hb hc hnone hnum hcur hkept hledger => exact .proposes ha hb hc hnone hnum hcur hkept hledger
  | waits ha hb hc hnum hcur htells => exact .waits ha hb hc hnum hcur htells
  | commits ha hb hnone hledger => exact .commits ha hb hnone hledger
  | aborts ha hb => exact .aborts ha hb

/-- The next round starts when there is none. -/
theorem Leading.start {ms : List RpcReq} (h : Leading s e t ms) (hcur : t.current = [])
    (hbusy : s.awaitAcceptDecision = true → s.current ≠ []) :
    Leading s e t.takePending.reissuePrepareForCurrent ms := by
  cases h with
  | rests ha _ htells => exact .rests ha rfl htells
  | empties ha _ hnone hkept hledger => exact .empties ha rfl hnone hkept hledger
  | proposes _ _ _ _ _ _ hkept => exact absurd hcur hkept
  | waits ha _ _ _ hsame =>
    rw [hsame] at hcur
    exact absurd hcur (hbusy ha)
  | commits ha _ hnone hledger => exact .commits ha rfl hnone hledger
  | aborts ha => exact .aborts ha rfl

theorem Core.leading (h : Core s e t) (hphase : s.awaitAcceptDecision = true → s.awaitPrepareDecision = false)
    (hok : s.leads Q verdict e) (hnone : e.decisions = []) (hout : s.outbox = []) (hstubs : s.stubs.Nodup)
    (hj : j ∈ s.stubs) : Leading s e t (sentTo RpcReq.ofRound t.outbox j) := by
  have hsilent : sentTo RpcReq.ofRound s.outbox j = [] := by
    rw [hout]
    rfl
  have hsync : ∀ dst, sentTo RpcReq.ofRound (s.outbox ++ [{ dst := dst, req := .sync s.syncReq }]) j = [] := by
    intro dst
    rw [sentTo_append, hsilent]
    exact sentTo_eq_nil (by simp [RpcReq.ofRound]) j
  have hall : ∀ req, sentTo RpcReq.ofRound (s.outbox ++ s.stubs.map fun dst => { dst := dst, req := req }) j =
      req.ofRound := by
    intro req
    rw [sentTo_append, hsilent, sentTo_sendAll hstubs, if_pos hj]
    rfl
  have hidle := idle_of_preparing hphase
  have hmail : ∀ {t ms}, sentTo RpcReq.ofRound t.outbox j = ms → Leading s e t ms →
      Leading s e t (sentTo RpcReq.ofRound t.outbox j) := by
    rintro t ms rfl hl
    exact hl
  have hframe : ∀ {l'}, s.ledger.Frame l' → e.Tells s.ledger l' := (Event.tells_iff_frame hnone).mpr
  cases h with
  | idle | refuse | transfer | tpcPrepare | disconnect | promise | tick =>
    exact hmail hsilent (.same hphase rfl (fun _ => rfl) rfl rfl (hframe (.touch _ _ _)))
  | decision => cases hnone
  | sweep =>
    exact hmail hsilent (.same hphase rfl (fun _ => rfl) rfl rfl (hframe (frame_sweep hok)))
  | behind =>
    exact hmail (hsync _) (.same hphase rfl (fun _ => rfl) rfl rfl (hframe (.touch _ _ _)))
  | accept request hconn hacc =>
    rcases hok with hdisc | hno
    · rw [hconn] at hdisc
      cases hdisc
    · rw [hacc] at hno
      cases hno
  | commit request hconn hcom =>
    rcases hok with hdisc | hno
    · rw [hconn] at hdisc
      cases hdisc
    · rw [hcom] at hno
      cases hno
  | countPrepare a b hawait =>
    exact hmail hsilent (.rests (hidle hawait) (hidle hawait) (hframe (.touch _ _ _)))
  | staleLog a b index hawait =>
    exact hmail (hsync _) (.rests (hidle hawait) (hidle hawait) (hframe (.touch _ _ _)))
  | reject a b hawait _ _ hempty =>
    exact hmail hsilent (.empties (hidle hawait) rfl rfl hempty rfl)
  | propose a b hawait _ _ hkept =>
    exact hmail (hall (.accept s.proposal)) (.proposes (hidle hawait) rfl rfl rfl rfl rfl hkept rfl)
  | abortPrepare a b hawait =>
    exact hmail hsilent (.rests (hidle hawait) rfl (hframe (frame_of_chain (releaseEntry_chain true s.current s.ledger))))
  | countAccept a b hawait =>
    exact hmail hsilent (.waits hawait hawait (hphase hawait) rfl rfl (hframe (.touch _ _ _)))
  | commitRound a b hawait =>
    exact hmail (hall (.commit { ballot := s.acceptNum })) (.commits hawait rfl rfl rfl)
  | abortAccept a b hawait =>
    exact hmail hsilent (.aborts hawait rfl)
  | synced | notSynced => exact hok.elim

/-- A prepare phase is not part of a round yet. -/
theorem sentTo_reissue (t : ServerImpl) (j : Int) :
    sentTo RpcReq.ofRound t.reissuePrepareForCurrent.outbox j = sentTo RpcReq.ofRound t.outbox j := by
  show sentTo _ (t.outbox ++ t.stubs.map fun dst => { dst := dst, req := .prepare t.nextPrepare }) j = _
  rw [sentTo_append]
  refine (congrArg _ (sentTo_eq_nil ?_ j)).trans (List.append_nil _)
  intro c hc
  obtain ⟨dst, -, rfl⟩ := List.mem_map.mp hc
  rfl

/-- **A leader's events, by what they are to its rounds.** -/
theorem handle_leading (hrun : s.Running)
    (hphase : s.awaitAcceptDecision = true → s.awaitPrepareDecision = false ∧ s.current ≠ [])
    (hok : s.leads Q verdict e) (hstubs : s.stubs.Nodup) (hj : j ∈ s.stubs) :
    Leading s e (s.handle e) (sentTo RpcReq.ofRound (s.handle e).outbox j) := by
  rcases e.decision_or_none with ⟨tid, isCommit, rfl⟩ | hnone
  · rw [handle_decision hok.1]
    exact .same (fun ha => (hphase ha).1) rfl (fun _ => rfl) rfl rfl rfl
  · have hok' : ({ s with outbox := [] } : ServerImpl).leads Q verdict e := by
      cases e with
      | input i => cases i <;> exact hok
      | _ => exact hok
    have hleading : ∀ {t}, Core { s with outbox := [] } e t → Leading s e t (sentTo RpcReq.ofRound t.outbox j) :=
      fun hcore => (hcore.leading (fun ha => (hphase ha).1) hok' hnone rfl hstubs hj).of_cleared
    generalize hu : s.handle e = u
    cases moves_of_handle hu with
    | done hcore => exact hleading hcore
    | @start t hcore hnot =>
      rw [sentTo_reissue]
      have hrun' : ({ s with outbox := [] } : ServerImpl).Running := hrun
      exact (hleading hcore).start ((hcore.takes hrun').running hnot) fun ha => (hphase ha).2
    | @retry t hpre =>
      rw [sentTo_reissue, hpre.outbox]
      cases hpre with
      | staleBallot a b latest hawait =>
        exact .rests (idle_of_preparing (fun ha => (hphase ha).1) hawait) rfl (.touch _ _ _)
      | synced | notSynced => exact hok.elim

end Leading

/-- The requests a leader is handed. -/
theorem leads.entries {Q : RequestPred} {verdict : Int → Bool} {s : ServerImpl} {e : Event} (h : s.leads Q verdict e) :
    ∀ b ∈ e.entries, Q b.isCrossShard b.request.tid b.request.txn := by
  intro b hb
  cases e with
  | input i =>
    cases i with
    | transfer call request =>
      rw [List.mem_singleton.mp hb]
      exact h
    | tpcPrepare call request =>
      rw [List.mem_singleton.mp hb]
      exact h
    | _ => cases hb
  | _ => cases hb

theorem leads.hears {Q : RequestPred} {verdict : Int → Bool} {s : ServerImpl} {e : Event} (h : s.leads Q verdict e)
    (tid : Int) (isCommit : Bool) (he : e = .input (.tpcDecision tid isCommit)) : s.hears verdict tid isCommit := by
  subst he
  exact h

section Lead

variable {c : Constants} {i j : Int} {txnOf : Int → Transaction} {inShard verdict : Int → Bool} {l₀ : Ledger}
  {x₀ : Copy} {past : List Event} {ended : List AcceptReq} {a : AcceptReq} {s : ServerImpl} {e : Event}

/-- A leader, in a round or not, after the rounds `ended`. -/
structure Leader (c : Constants) (i : Int) (txnOf : Int → Transaction) (inShard : Int → Bool) (ended : List AcceptReq)
    (s : ServerImpl) : Prop where
  alive : s.Alive c i
  parked : ∀ b ∈ s.parked, routed txnOf inShard b.isCrossShard b.request.tid b.request.txn
  ended : ∀ a ∈ ended, ∀ r ∈ a.batch, r.txn = txnOf r.tid

theorem Leader.handle (h : s.Leader c i txnOf inShard ended) (hok : s.leads (routed txnOf inShard) verdict e) :
    (s.handle e).Leader c i txnOf inShard ended := by
  refine ⟨h.alive.handle e, ?_, h.ended⟩
  intro b hb
  rcases (handle_takes h.alive.running e).parked b hb with hold | hnew
  · exact h.parked b hold
  · exact hok.entries b hnew

theorem Leader.snoc (h : s.Leader c i txnOf inShard ended) (ha : ∀ r ∈ a.batch, r.txn = txnOf r.tid) :
    s.Leader c i txnOf inShard (ended ++ [a]) := by
  refine ⟨h.alive, h.parked, ?_⟩
  intro a' ha'
  rcases List.mem_append.mp ha' with hold | hnew
  · exact h.ended a' hold
  · rw [List.mem_singleton.mp hnew]
    exact ha

variable (c i txnOf inShard verdict l₀ x₀) in
/-- Between two rounds. -/
structure LeaderIdle (past : List Event) (ended : List AcceptReq) (s : ServerImpl) : Prop where
  leader : s.Leader c i txnOf inShard ended
  await : s.awaitAcceptDecision = false
  tracks : Ledger.Tracks txnOf inShard verdict l₀ (ended.foldl (Copy.round inShard) x₀) (past.flatMap Event.decisions) s.ledger

variable (c i txnOf inShard verdict l₀ x₀) in
/-- In the accept phase of the round `a`. -/
structure LeaderBusy (past : List Event) (ended : List AcceptReq) (a : AcceptReq) (s : ServerImpl) : Prop where
  leader : s.Leader c i txnOf inShard ended
  await : s.awaitAcceptDecision = true
  prepared : s.awaitPrepareDecision = false
  current : s.current ≠ []
  round : a = { ballot := s.acceptNum, batch := s.current.map BatchEntry.request }
  tracks : Ledger.Tracks txnOf inShard verdict l₀ ((ended.foldl (Copy.round inShard) x₀).accept inShard a)
    (past.flatMap Event.decisions) s.ledger

theorem flatMap_decisions_snoc (past : List Event) (e : Event) :
    (past ++ [e]).flatMap Event.decisions = past.flatMap Event.decisions ++ e.decisions := by
  rw [List.flatMap_append, List.flatMap_singleton]

theorem Alive.leading (h : s.Alive c i) (hj : j ∈ stubsOf c i)
    (hphase : s.awaitAcceptDecision = true → s.awaitPrepareDecision = false ∧ s.current ≠ [])
    {Q : RequestPred} (hok : s.leads Q verdict e) :
    Leading s e (s.handle e) (sentTo RpcReq.ofRound (s.handle e).outbox j) := by
  refine handle_leading h.running hphase hok ?_ ?_
  · rw [h.stubs]
    exact nodup_stubsOf c i
  · rw [h.stubs]
    exact hj

theorem Leader.current (h : s.Leader c i txnOf inShard ended) :
    ∀ b ∈ s.current, routed txnOf inShard b.isCrossShard b.request.tid b.request.txn :=
  fun b hb => h.parked b (List.mem_append_left _ hb)

theorem LeaderIdle.step (h : LeaderIdle c i txnOf inShard verdict l₀ x₀ past ended s) (hj : j ∈ stubsOf c i)
    (hok : s.leads (routed txnOf inShard) verdict e) :
    (sentTo RpcReq.ofRound (s.handle e).outbox j = [] ∧
      LeaderIdle c i txnOf inShard verdict l₀ x₀ (past ++ [e]) ended (s.handle e)) ∨
    ∃ m, sentTo RpcReq.ofRound (s.handle e).outbox j = [m] ∧ ∀ a, m = .accept a →
      LeaderBusy c i txnOf inShard verdict l₀ x₀ (past ++ [e]) ended a (s.handle e) := by
  have hnot : s.awaitAcceptDecision ≠ true := by
    rw [h.await]
    exact Bool.false_ne_true
  have hleading := h.leader.alive.leading hj (fun ha => absurd ha hnot) hok
  have hnext := h.leader.handle hok
  generalize sentTo RpcReq.ofRound (s.handle e).outbox j = ms at hleading ⊢
  generalize s.handle e = u at hleading hnext ⊢
  cases hleading with
  | rests _ hu htells =>
    refine .inl ⟨rfl, hnext, hu, ?_⟩
    rw [flatMap_decisions_snoc]
    exact h.tracks.tells htells hok.hears
  | empties _ hu hnone hkept hledger =>
    refine .inl ⟨rfl, hnext, hu, ?_⟩
    have htracks := h.tracks.admitAll s.promisedNum h.leader.current
    rw [hkept] at htracks
    rw [flatMap_decisions_snoc, hnone, List.append_nil, hledger]
    exact htracks
  | proposes _ hu hprepared hnone hnum hcur hne hledger =>
    refine .inr ⟨_, rfl, ?_⟩
    rintro a heq
    obtain rfl := RpcReq.accept.inj heq
    refine ⟨hnext, hu, hprepared, hne, ?_, ?_⟩
    · rw [hnum, hcur]
      rfl
    · rw [flatMap_decisions_snoc, hnone, List.append_nil, hledger]
      exact h.tracks.admitAll s.promisedNum h.leader.current
  | waits ha => exact absurd ha hnot
  | commits ha => exact absurd ha hnot
  | aborts ha => exact absurd ha hnot

theorem LeaderBusy.step (h : LeaderBusy c i txnOf inShard verdict l₀ x₀ past ended a s) (hj : j ∈ stubsOf c i)
    (hok : s.leads (routed txnOf inShard) verdict e) :
    (sentTo RpcReq.ofRound (s.handle e).outbox j = [] ∧
      (LeaderBusy c i txnOf inShard verdict l₀ x₀ (past ++ [e]) ended a (s.handle e) ∨
        ((s.handle e).Alive c i ∧ (s.handle e).awaitAcceptDecision = false))) ∨
    ∃ m, sentTo RpcReq.ofRound (s.handle e).outbox j = [m] ∧ (m = .commit { ballot := a.ballot } →
      LeaderIdle c i txnOf inShard verdict l₀ x₀ (past ++ [e]) (ended ++ [a]) (s.handle e)) := by
  have hnot : s.awaitAcceptDecision ≠ false := by
    rw [h.await]
    exact Bool.noConfusion
  have hleading := h.leader.alive.leading hj (fun _ => ⟨h.prepared, h.current⟩) hok
  have hnext := h.leader.handle hok
  generalize sentTo RpcReq.ofRound (s.handle e).outbox j = ms at hleading ⊢
  generalize s.handle e = u at hleading hnext ⊢
  cases hleading with
  | waits _ hu hprepared hnum hcur htells =>
    refine .inl ⟨rfl, .inl ⟨hnext, hu, hprepared, ?_, ?_, ?_⟩⟩
    · rw [hcur]
      exact h.current
    · rw [hnum, hcur]
      exact h.round
    · rw [flatMap_decisions_snoc]
      exact h.tracks.tells htells hok.hears
  | commits _ hu hnone hledger =>
    refine .inr ⟨_, rfl, fun _ => ⟨hnext.snoc ?_, hu, ?_⟩⟩
    · intro r hr
      rw [h.round] at hr
      obtain ⟨b, hb, rfl⟩ := List.mem_map.mp hr
      exact (h.leader.current b hb).1
    · rw [flatMap_decisions_snoc, hnone, List.append_nil, hledger, List.foldl_append]
      have htracks := h.tracks.foldl_commitEntry s.acceptNum h.leader.current
      rw [← h.round] at htracks
      exact htracks
  | aborts _ hu => exact .inl ⟨rfl, .inr ⟨hnext.alive, hu⟩⟩
  | rests ha => exact absurd ha hnot
  | empties ha => exact absurd ha hnot
  | proposes ha => exact absurd ha hnot

/-- **The leader runs in rounds.** -/
theorem leader_bracketed (hj : j ∈ stubsOf c i) :
    Bracketed handle (fun s e => sentTo RpcReq.ofRound (s.handle e).outbox j)
      (leads (routed txnOf inShard) verdict) RpcReq.accept (fun a => .commit { ballot := a.ballot })
      (LeaderIdle c i txnOf inShard verdict l₀ x₀) (LeaderBusy c i txnOf inShard verdict l₀ x₀)
      (fun s => s.Alive c i ∧ s.awaitAcceptDecision = false) where
  idle_step := fun hs hok => hs.step hj hok
  busy_step := fun hs hok => hs.step hj hok
  lost_step := by
    rintro s e ⟨halive, hidle⟩ hok
    have hnot : s.awaitAcceptDecision ≠ true := by
      rw [hidle]
      exact Bool.false_ne_true
    have hleading := halive.leading hj (fun ha => absurd ha hnot) hok
    have hnext := halive.handle e
    generalize sentTo RpcReq.ofRound (s.handle e).outbox j = ms at hleading ⊢
    generalize s.handle e = u at hleading hnext ⊢
    cases hleading with
    | rests _ hu => exact .inl ⟨rfl, hnext, hu⟩
    | empties _ hu => exact .inl ⟨rfl, hnext, hu⟩
    | proposes => exact .inr ⟨_, rfl, fun a heq => nomatch heq⟩
    | waits ha => exact absurd ha hnot
    | commits ha => exact absurd ha hnot
    | aborts ha => exact absurd ha hnot

end Lead

/-! ## The replica -/

section Follow

variable {txnOf : Int → Transaction} {inShard verdict : Int → Bool} {l₀ : Ledger} {x₀ : Copy} {past : List Event}
  {ended : List AcceptReq} {a : AcceptReq} {s t : ServerImpl} {e : Event}

theorem Core.following (h : Core s e t) (hok : s.follows verdict e) (hround : e.ofRound = []) (hnone : e.decisions = []) :
    t.acceptNum = s.acceptNum ∧ t.acceptBatch = s.acceptBatch ∧ s.ledger.Frame t.ledger := by
  cases h with
  | decision => cases hnone
  | sweep => exact ⟨rfl, rfl, frame_sweep hok⟩
  | accept | commit => cases hround
  | countPrepare _ _ hawait | staleLog _ _ _ hawait | reject _ _ hawait | propose _ _ hawait | abortPrepare _ _ hawait =>
    rw [show s.awaitPrepareDecision = false from hok] at hawait
    cases hawait
  | countAccept _ _ hawait | commitRound _ _ hawait | abortAccept _ _ hawait =>
    rw [show s.awaitAcceptDecision = false from hok] at hawait
    cases hawait
  | synced | notSynced => exact hok.elim
  | _ => exact ⟨rfl, rfl, .touch _ _ _⟩

/-- Between the messages of the rounds a replica keeps what it has accepted. -/
theorem handle_following (hok : s.follows verdict e) (hround : e.ofRound = []) :
    (s.handle e).acceptNum = s.acceptNum ∧ (s.handle e).acceptBatch = s.acceptBatch ∧
      e.Tells s.ledger (s.handle e).ledger := by
  rcases e.decision_or_none with ⟨tid, isCommit, rfl⟩ | hnone
  · rw [handle_decision hok.1]
    exact ⟨rfl, rfl, rfl⟩
  · rw [Event.tells_iff_frame hnone]
    have hok' : ({ s with outbox := [] } : ServerImpl).follows verdict e := by
      cases e with
      | input i => cases i <;> exact hok
      | _ => exact hok
    generalize hu : s.handle e = u
    cases moves_of_handle hu with
    | done hcore => exact hcore.following hok' hround hnone
    | start hcore => exact hcore.following hok' hround hnone
    | retry hpre =>
      cases hpre with
      | staleBallot _ _ _ hawait =>
        rw [show s.awaitPrepareDecision = false from hok] at hawait
        cases hawait
      | synced | notSynced => exact hok.elim

theorem follows.hears (h : s.follows verdict e) (tid : Int) (isCommit : Bool)
    (he : e = .input (.tpcDecision tid isCommit)) : s.hears verdict tid isCommit := by
  subst he
  exact h

theorem handle_acceptCall {request : AcceptReq} (hconn : s.iAmDisconnected = false) (hacc : s.accepts request = true) :
    s.handle (.acceptCall request) = { s with
      outbox := []
      accepted := true
      acceptNum := request.ballot
      acceptBatch := request.batch
      ledger := request.batch.foldl (acceptEntry request.ballot) s.ledger } := by
  show (processAcceptCall { s with outbox := [] } request).1 = _
  rw [processAcceptCall, if_neg (by rw [hconn]; exact Bool.false_ne_true)]
  exact congrArg Prod.fst (if_pos hacc)

theorem handle_commitCall {request : CommitReq} (hconn : s.iAmDisconnected = false) (hcom : s.commits request = true) :
    s.handle (.commitCall request) = { s with
      outbox := []
      ledger := s.acceptBatch.foldl (commitAccepted s.acceptNum) s.ledger
      promised := false
      accepted := false } := by
  show processCommitCall { s with outbox := [] } request = _
  rw [processCommitCall, if_neg (by rw [hconn]; exact Bool.false_ne_true)]
  exact if_pos hcom

variable (txnOf inShard verdict l₀ x₀) in
/-- Between two rounds.  What a replica is sent it can only trust. -/
def ReplicaIdle (past : List Event) (ended : List AcceptReq) (s : ServerImpl) : Prop :=
  (∀ a ∈ ended, ∀ r ∈ a.batch, r.txn = txnOf r.tid) →
    Ledger.Tracks txnOf inShard verdict l₀ (ended.foldl (Copy.round inShard) x₀) (past.flatMap Event.decisions) s.ledger

variable (txnOf inShard verdict l₀ x₀) in
/-- Between the accept and the commit of the round `a`. -/
structure ReplicaBusy (past : List Event) (ended : List AcceptReq) (a : AcceptReq) (s : ServerImpl) : Prop where
  acceptNum : s.acceptNum = a.ballot
  acceptBatch : s.acceptBatch = a.batch
  tracks : (∀ a' ∈ ended ++ [a], ∀ r ∈ a'.batch, r.txn = txnOf r.tid) →
    Ledger.Tracks txnOf inShard verdict l₀ ((ended.foldl (Copy.round inShard) x₀).accept inShard a)
      (past.flatMap Event.decisions) s.ledger

/-- **The replica runs in the same rounds.** -/
theorem replica_bracketed :
    Bracketed handle (fun _ e => e.ofRound) (follows verdict) RpcReq.accept (fun a => .commit { ballot := a.ballot })
      (ReplicaIdle txnOf inShard verdict l₀ x₀) (ReplicaBusy txnOf inShard verdict l₀ x₀) (fun _ => False) where
  idle_step := by
    intro past ended s e hs hok
    by_cases hround : e.ofRound = []
    · obtain ⟨-, -, htells⟩ := handle_following hok hround
      refine .inl ⟨hround, fun hover => ?_⟩
      rw [flatMap_decisions_snoc]
      exact (hs hover).tells htells hok.hears
    · cases e with
      | acceptCall request =>
        refine .inr ⟨_, rfl, ?_⟩
        rintro a heq
        obtain rfl := RpcReq.accept.inj heq
        rw [handle_acceptCall hok.1 hok.2]
        refine ⟨rfl, rfl, fun hover => ?_⟩
        rw [flatMap_decisions_snoc, show (Event.acceptCall request).decisions = [] from rfl, List.append_nil]
        have htracks := hs fun a ha => hover a (List.mem_append_left _ ha)
        exact htracks.foldl_acceptEntry (hover request (List.mem_append_right _ (List.mem_singleton_self _)))
      | commitCall request => exact .inr ⟨_, rfl, fun a heq => nomatch heq⟩
      | _ => exact absurd rfl hround
  busy_step := by
    intro past ended a s e hs hok
    by_cases hround : e.ofRound = []
    · obtain ⟨hnum, hbatch, htells⟩ := handle_following hok hround
      refine .inl ⟨hround, .inl ⟨hnum.trans hs.acceptNum, hbatch.trans hs.acceptBatch, fun hover => ?_⟩⟩
      rw [flatMap_decisions_snoc]
      exact (hs.tracks hover).tells htells hok.hears
    · cases e with
      | acceptCall request => exact .inr ⟨_, rfl, fun heq => nomatch heq⟩
      | commitCall request =>
        refine .inr ⟨_, rfl, ?_⟩
        intro heq hover
        obtain rfl := RpcReq.commit.inj heq
        have hcom : s.commits { ballot := a.ballot } = true := by
          simp [commits, hok.2, hs.acceptNum]
        rw [handle_commitCall hok.1 hcom, flatMap_decisions_snoc,
          show (Event.commitCall { ballot := a.ballot }).decisions = [] from rfl, List.append_nil, List.foldl_append,
          hs.acceptNum, hs.acceptBatch]
        exact (hs.tracks hover).foldl_commitAccepted (hover a (List.mem_append_right _ (List.mem_singleton_self _)))
      | _ => exact absurd rfl hround
  lost_step := fun hs => hs.elim

end Follow

end ServerImpl

/-! ## Both -/

/-- The accounts of the shard of a server. -/
def shardOf (c : Constants) (serverId : Int) : Int → Bool :=
  fun a => isClientInCluster c a (getClusterIdFromServerId c serverId)

/-- `L` leads the rounds `rounds` in the run `es`, all of them to their accept quorum, and `R` handles them in the
run `fs`, from states that agree on the agreed entries, on `balance_applied` and on the balances. -/
structure Replicates (Q : RequestPred) (verdict : Int → Bool) (L R : ServerImpl) (es fs : List Event)
    (rounds : List AcceptReq) : Prop where
  sequence : agreed L.ledger.log = agreed R.ledger.log
  applied : L.ledger.balanceApplied = R.ledger.balanceApplied
  balances : ∀ a, L.ledger.isClientInCluster a = true → L.ledger.balances a = R.ledger.balances a
  idle : L.awaitAcceptDecision = false
  queued : ∀ b ∈ L.parked, Q b.isCrossShard b.request.tid b.request.txn
  leads : okRun ServerImpl.handle (ServerImpl.leads Q verdict) L es
  follows : okRun ServerImpl.handle (ServerImpl.follows verdict) R fs
  sent : L.mail R.serverId es = ServerImpl.wholeRounds rounds
  handled : fs.flatMap Event.ofRound = ServerImpl.wholeRounds rounds

/-- `L` and `R` have the same agreed entries and the same index, and if they have heard the same decisions, in the
runs `es` and `fs`, the same money. -/
structure EndAlike (es fs : List Event) (L R : ServerImpl) : Prop where
  sequence : agreed L.ledger.log = agreed R.ledger.log
  index : L.ledger.paxosIndex = R.ledger.paxosIndex
  money : (∀ d, d ∈ es.flatMap Event.decisions ↔ d ∈ fs.flatMap Event.decisions) →
    L.ledger.balanceApplied = R.ledger.balanceApplied ∧
      ∀ a, L.ledger.isClientInCluster a = true → L.ledger.balances a = R.ledger.balances a

/-- **Leader and replica execute the same rounds alike**, where a tid stands for one transaction and neither has
lost, by a timeout or a restart, a prepared transaction that commits. -/
theorem replicas_alike (c : Constants) (i j : Int) (v w : List LifeEvent) (txnOf : Int → Transaction)
    (verdict : Int → Bool) (es fs : List Event) (rounds : List AcceptReq) (hj : j ∈ stubsOf c i)
    (h : Replicates (routed txnOf (shardOf c i)) verdict (ServerImpl.life c i v) (ServerImpl.life c j w) es fs rounds)
    (hL : (ServerImpl.life c i v).ledger.Ready txnOf (shardOf c i) verdict)
    (hR : (ServerImpl.life c j w).ledger.Ready txnOf (shardOf c i) verdict) :
    EndAlike es fs (es.foldl ServerImpl.handle (ServerImpl.life c i v))
      (fs.foldl ServerImpl.handle (ServerImpl.life c j w)) := by
  have haliveL := ServerImpl.alive_life c i v
  have haliveR := ServerImpl.alive_life c j w
  generalize ServerImpl.life c i v = L at *
  generalize ServerImpl.life c j w = R at *
  have hshardL : L.ledger.isClientInCluster = shardOf c i := haliveL.shard
  have hshardR : R.ledger.isClientInCluster = shardOf c i := by
    rw [haliveR.shard, (mem_stubsOf.mp hj).2.1]
    rfl
  -- both start from one copy
  have hcopy : R.ledger.copy = L.ledger.copy := by
    rw [Ledger.copy, Ledger.copy, h.sequence, h.applied]
  have hidleR : ServerImpl.ReplicaIdle txnOf (shardOf c i) verdict R.ledger L.ledger.copy [] [] R := by
    rw [← hcopy]
    exact fun _ => .start haliveR.counted.wal hshardR haliveR.counted.index hR
  have hidleL : ServerImpl.LeaderIdle c i txnOf (shardOf c i) verdict L.ledger L.ledger.copy [] [] L :=
    ⟨⟨haliveL, h.queued, fun _ ha => absurd ha List.not_mem_nil⟩, h.idle,
      .start haliveL.counted.wal hshardL haliveL.counted.index hL⟩
  have hendL := (ServerImpl.leader_bracketed hj).run hidleL h.leads (by rw [← haliveR.identity]; exact h.sent)
  have hendR := ServerImpl.replica_bracketed.run hidleR h.follows ((trace_eq_flatMap _ _ _ _).trans h.handled)
  have htracksL := hendL.tracks
  have htracksR := hendR hendL.leader.ended
  refine ⟨htracksL.seq.trans htracksR.seq.symm, ?_, ?_⟩
  · have hindexL := htracksL.index
    have hindexR := htracksR.index
    omega
  · intro hsame
    have hbalances := h.balances
    rw [hshardL] at hbalances
    rw [htracksL.shard]
    exact htracksL.alike htracksR h.applied hbalances hsame

section Runs

/-- A reply to server 1 that promises its ballot `n`. -/
def promisesTo (n : Int) : Event :=
  .prepareReply .ok ⟨⟨n, 1⟩, -1⟩ (ServerImpl.plainPrepareRes true ⟨n, 1⟩)

/-- A reply to server 1 that accepts its proposal of ballot `n`. -/
def acceptsOf (n : Int) : Event := .acceptReply .ok ⟨⟨n, 1⟩, []⟩ { ack := true, ballot := ⟨n, 1⟩ }

/-- Two rounds of server 1: one transfer, then a cross-shard and an intra-shard request together.  The decision
comes in the middle of the second. -/
def leadsMixedBatch : List Event :=
  [.input (.transfer 0 ⟨⟨4, 5, 1⟩, 3⟩), .input (.tpcPrepare 1 ⟨⟨1, 1001, 3⟩, 1⟩), .input (.transfer 2 ⟨⟨2, 3, 4⟩, 2⟩),
   promisesTo 1, acceptsOf 1, promisesTo 2, .input (.tpcDecision 1 true), acceptsOf 2]

/-- Server 2 handles the two rounds, and hears the decision at the end. -/
def followsMixedBatch : List Event :=
  [.prepareCall ⟨⟨1, 1⟩, -1⟩, .acceptCall ⟨⟨1, 1⟩, [⟨⟨4, 5, 1⟩, 3⟩]⟩, .commitCall ⟨⟨1, 1⟩⟩,
   .prepareCall ⟨⟨2, 1⟩, 0⟩, .acceptCall ⟨⟨2, 1⟩, [⟨⟨1, 1001, 3⟩, 1⟩, ⟨⟨2, 3, 4⟩, 2⟩]⟩, .commitCall ⟨⟨2, 1⟩⟩,
   .input (.tpcDecision 1 true)]

theorem Ledger.Ready.fresh (txnOf : Int → Transaction) (inShard verdict : Int → Bool) (c : Constants) (clusterId : Int) :
    (Ledger.fresh c clusterId).Ready txnOf inShard verdict where
  pending := by
    intro t e he
    cases (WAL.pendingEntry_empty t).symm.trans he
  waits := fun _ he => absurd he List.not_mem_nil

theorem replicas_alike_mixedBatch :
    EndAlike leadsMixedBatch followsMixedBatch (leadsMixedBatch.foldl ServerImpl.handle (ServerImpl.fresh ⟨3, 3⟩ 1))
      (followsMixedBatch.foldl ServerImpl.handle (ServerImpl.fresh ⟨3, 3⟩ 2)) :=
  replicas_alike ⟨3, 3⟩ 1 2 [] [] (fun t => if t = 1 then ⟨1, 1001, 3⟩ else if t = 2 then ⟨2, 3, 4⟩ else ⟨4, 5, 1⟩)
    (fun _ => true) leadsMixedBatch followsMixedBatch
    [⟨⟨1, 1⟩, [⟨⟨4, 5, 1⟩, 3⟩]⟩, ⟨⟨2, 1⟩, [⟨⟨1, 1001, 3⟩, 1⟩, ⟨⟨2, 3, 4⟩, 2⟩]⟩] (by decide +kernel)
    { sequence := rfl
      applied := rfl
      balances := fun _ _ => rfl
      idle := rfl
      queued := fun _ hb => absurd hb List.not_mem_nil
      leads := by decide +kernel
      follows := by decide +kernel
      sent := by decide +kernel
      handled := by decide +kernel }
    (.fresh _ _ _ _ _) (.fresh _ _ _ _ _)

/-- Server 1 leads a cross-shard request and commits it, and then leads a transfer under the same tid, which it
takes for committed. -/
def leadsTidTwice : List Event :=
  [.input (.tpcPrepare 0 ⟨⟨1, 1001, 3⟩, 1⟩), promisesTo 1, acceptsOf 1, .input (.tpcDecision 1 true),
   .input (.transfer 1 ⟨⟨2, 3, 4⟩, 1⟩), promisesTo 2, acceptsOf 2]

/-- Server 2 has not heard the decision when the transfer comes. -/
def followsTidTwice : List Event :=
  [.prepareCall ⟨⟨1, 1⟩, -1⟩, .acceptCall ⟨⟨1, 1⟩, [⟨⟨1, 1001, 3⟩, 1⟩]⟩, .commitCall ⟨⟨1, 1⟩⟩,
   .prepareCall ⟨⟨2, 1⟩, 0⟩, .acceptCall ⟨⟨2, 1⟩, [⟨⟨2, 3, 4⟩, 1⟩]⟩, .commitCall ⟨⟨2, 1⟩⟩]

/-- Routing alone does not make them alike: where the tid of a transfer has been the tid of a cross-shard request,
the transfer is skipped by the server that has heard the decision. -/
theorem replicas_differ :
    ¬ ∀ (c : Constants) (i j : Int) (v w : List LifeEvent) (verdict : Int → Bool) (es fs : List Event)
      (rounds : List AcceptReq), j ∈ stubsOf c i →
      Replicates (byShard (shardOf c i)) verdict (ServerImpl.life c i v) (ServerImpl.life c j w) es fs rounds →
      EndAlike es fs (es.foldl ServerImpl.handle (ServerImpl.life c i v))
        (fs.foldl ServerImpl.handle (ServerImpl.life c j w)) := by
  intro h
  have halike := h ⟨3, 3⟩ 1 2 [] [] (fun _ => true) leadsTidTwice followsTidTwice
    [⟨⟨1, 1⟩, [⟨⟨1, 1001, 3⟩, 1⟩]⟩, ⟨⟨2, 1⟩, [⟨⟨2, 3, 4⟩, 1⟩]⟩] (by decide +kernel)
    { sequence := rfl
      applied := rfl
      balances := fun _ _ => rfl
      idle := rfl
      queued := fun _ hb => absurd hb List.not_mem_nil
      leads := by decide +kernel
      follows := by decide +kernel
      sent := by decide +kernel
      handled := by decide +kernel }
  exact absurd halike.sequence (by decide +kernel)

/-- Server 1 leads a cross-shard request, and has timed it out since. -/
def timedOut : List LifeEvent :=
  [.event (.input (.tpcPrepare 0 ⟨⟨1, 1001, 3⟩, 1⟩)), .event (promisesTo 1), .event (acceptsOf 1),
   .event (.input (.tick 5001)), .event (.input .sweep)]

/-- Server 2 has the request pending. -/
def stillPending : List LifeEvent :=
  [.event (.prepareCall ⟨⟨1, 1⟩, -1⟩), .event (.acceptCall ⟨⟨1, 1⟩, [⟨⟨1, 1001, 3⟩, 1⟩]⟩), .event (.commitCall ⟨⟨1, 1⟩⟩)]

/-- Nor does one transaction per tid: the two servers agree on all that `Replicates` compares, and the commit moves
money on one of them. -/
theorem timed_out_on_one :
    ¬ ∀ (v w : List LifeEvent) (txnOf : Int → Transaction) (verdict : Int → Bool) (es fs : List Event)
      (rounds : List AcceptReq),
      Replicates (routed txnOf (shardOf ⟨3, 3⟩ 1)) verdict (ServerImpl.life ⟨3, 3⟩ 1 v) (ServerImpl.life ⟨3, 3⟩ 2 w)
        es fs rounds →
      EndAlike es fs (es.foldl ServerImpl.handle (ServerImpl.life ⟨3, 3⟩ 1 v))
        (fs.foldl ServerImpl.handle (ServerImpl.life ⟨3, 3⟩ 2 w)) := by
  intro h
  have halike := h timedOut stillPending (fun _ => ⟨1, 1001, 3⟩) (fun _ => true) [.input (.tpcDecision 1 true)]
    [.input (.tpcDecision 1 true)] []
    { sequence := by decide +kernel
      applied := by decide +kernel
      balances := fun _ _ => rfl
      idle := by decide +kernel
      queued := by decide +kernel
      leads := by decide +kernel
      follows := by decide +kernel
      sent := by decide +kernel
      handled := by decide +kernel }
  exact absurd (halike.money fun _ => Iff.rfl).1 (by decide +kernel)

end Runs

end MultiPaxosDB
