import WhisperNet.Lib.Between
import WhisperNet.Lib.Machine
import WhisperNet.Runtime.Auction

/-!
# Auctions at the Same Time

The auctions of a node run in threads of their own and share one table of slots,
in which the receive thread stores the bids. A bid is stored in the slot of its
task as long as the auction has that open, and in no other. So what an auction
ranks are the bids for its task that came between its opening and its closing,
in the order of their arrival, with the bid of the node itself behind them.

The sort is stable, so of several bids with the least sum the first one wins, and
the node's own only if no other has that sum. Late, repeated and misdirected bids
change nothing of this.

The sum is one of floats, so two prices that differ by a little less or a little
more than the bonus may be as good as each other. And the request goes to every peer
that is not dead without a guard: if one of them has a number for its key, the thread
ends there, with the slot open and no award.

## Main definitions

* `bidRequestMsg`: What an auction sends to the peers.
* `AuctionEvent`: An auction begins or ends, or bids arrive.
* `AuctionHouse`: A node, its auctions and the awards it has issued.
* `AuctionHouse.step`: One event.
* `bidsFor`, `gathered`: The bids for a task in a trace.
* `AuctionHouse.Fair`: Every auction that is over issued one award, to the best, if
  its request could be sent.

## Theorems

* `bid_stored`: What a bid does to the slots.
* `runAuction_ok`: An auction among nodes issues an award.
* `AuctionHouse.step_conducted`: One step.
* `AuctionHouse.auctions_fair`: Every auction of every run.
* `Priced.cheaper_passed_over`: A bid that is better by less than the last digit, and
  an auction that awards nothing.
-/

namespace WhisperNet

open WhisperNode MembershipLayer
open PyVal (get getD)

/-- The `task_bid_request` of an auction. -/
def bidRequestMsg (ourKey uuid taskId : PyStr) (shardId : Int) : Msg :=
  [(lit "type", .str (lit "task_bid_request")),
   (lit "msg_id", .str uuid),
   (lit "from", .str ourKey),
   (lit "task_id", .str taskId),
   (lit "shard_id", .int shardId)]

/-- Where the thread of an auction is. -/
inductive AuctionStage
  | idle
  | waiting (shardId : Int)
  | ended
  deriving DecidableEq

/-- `start` opens a slot and sends the request to the peers, with the table as the
    other threads have it by then. `finish` is the rest of `_run_auction` after the
    wait, and `bid` is the arrival of what a node answers to a request. -/
inductive AuctionEvent
  | start (env : NodeEnv) (taskId : PyStr) (shardId : Int) (peers : Dict Key PeerInfo)
  | bid (bidder : WhisperNode) (env : NodeEnv) (request : Msg)
  | finish (env : NodeEnv) (taskId : PyStr)

namespace AuctionEvent

def starts (taskId : PyStr) : AuctionEvent → Bool
  | .start _ taskId' _ _ => taskId' = taskId
  | _ => false

def finishes (taskId : PyStr) : AuctionEvent → Bool
  | .finish _ taskId' => taskId' = taskId
  | _ => false

/-- The bids for a task that arrive in an event. -/
def bidsFor (taskId : PyStr) : AuctionEvent → List Bid
  | .bid bidder env request =>
    ((bidder.handleTaskBidRequest env request).2.filter
      (fun o => get o.msg (lit "task_id") = .str taskId)).map (fun _ => bidder.ownBid)
  | _ => []

/-- The bids for a task that arrive between the opening of its auction and the
    closing, in order. -/
def gathered (taskId : PyStr) (log : List AuctionEvent) : List Bid :=
  (between (starts taskId) (finishes taskId) log).flatMap (bidsFor taskId)

end AuctionEvent

open AuctionEvent

/-- A node with its auctions. The awards are those issued so far, with whom they
    went to. -/
structure AuctionHouse where
  node : WhisperNode
  stages : PyStr → AuctionStage := fun _ => .idle
  requests : List Send := []
  awards : List (PyStr × PyVal × Msg) := []
  log : List AuctionEvent := []

namespace AuctionHouse

/-- The node without the slot of a task. -/
def popped (s : AuctionHouse) (taskId : PyStr) : WhisperNode :=
  { s.node with bidCollections := s.node.bidCollections.erase (.str taskId) }

/-- The node with the table of peers of this time. -/
def meeting (s : AuctionHouse) (peers : Dict Key PeerInfo) : MembershipLayer :=
  { s.node.membership with peers := peers }

/-- One event. A task is put to auction once, and the thread ends with the slot open
    if the request cannot be sent. The wait ends at any time after the opening, with
    three bids or when its time is up. An award to the node itself is handled on the
    spot. -/
def step (P : Primitives) (F : FloatSort Bid) (s : AuctionHouse) (e : AuctionEvent) :
    Option AuctionHouse :=
  match e with
  | .start env taskId shardId peers =>
    if s.stages taskId = .idle then
      let request := broadcast (bidRequestMsg s.node.membership.ourKey env.uuid taskId shardId)
        (s.meeting peers)
      some { s with
        node := { s.node with
          membership := s.meeting peers
          bidCollections := s.node.bidCollections.set (.str taskId) {} }
        stages := Function.update s.stages taskId
          (if request.ret = .ok () then .waiting shardId else .ended)
        requests := s.requests ++ request.out
        log := s.log ++ [e] }
    else none
  | .bid bidder env request => some { s with
      node := (bidder.handleTaskBidRequest env request).2.foldl
        (fun node o => node.handleTaskBid o.msg) s.node
      log := s.log ++ [e] }
  | .finish env taskId =>
    match s.stages taskId with
    | .waiting shardId =>
      match s.node.runAuction F env.uuid taskId shardId with
      | .ok (dest, msg) => some
        { s with
          node := if dest = .str s.node.membership.ourKey
            then ((s.popped taskId).handleTaskAward P env msg).1 else s.popped taskId
          stages := Function.update s.stages taskId .ended
          awards := s.awards ++ [(taskId, dest, msg)]
          log := s.log ++ [e] }
      | .error _ => some { s with
          node := s.popped taskId
          stages := Function.update s.stages taskId .ended
          log := s.log ++ [e] }
    | _ => none

/-- The awards of the auction of a task. -/
def awardsOf (s : AuctionHouse) (taskId : PyStr) : List (PyVal × Msg) :=
  (s.awards.filter (fun a => a.1 = taskId)).map Prod.snd

/-- Every auction that is over and could send its request has issued one award, to
    the first of the bids with the least sum, and an auction that is not over none. -/
def Fair (s : AuctionHouse) : Prop :=
  ∀ env taskId shardId peers, .start env taskId shardId peers ∈ s.log →
    Addressable (s.meeting peers).getAlivePeers →
    ((∀ env, .finish env taskId ∉ s.log) ∧ s.awardsOf taskId = []) ∨
    ((∃ env, .finish env taskId ∈ s.log) ∧ ∃ uuid winner,
      FirstLeast (bidSum shardId) (gathered taskId s.log ++ [s.node.ownBid]) winner ∧
      s.awardsOf taskId =
        [(winner.sender, awardMsg s.node.membership.ourKey uuid taskId shardId winner)])

end AuctionHouse

/-! ## Bids -/

/-- A bid that a node sends says what the node asks for. -/
theorem bid_of_request {bidder : WhisperNode} {env : NodeEnv} {request : Msg} {o : Send}
    (ho : o ∈ (bidder.handleTaskBidRequest env request).2) :
    (get o.msg (lit "task_id")).truthy = true ∧ get o.msg (lit "from") = bidder.ownBid.sender ∧
      getD o.msg (lit "price_axl") (.float (1 / 100)) = .float bidder.membership.ourPriceAxl ∧
      getD o.msg (lit "capabilities") (.list []) = bidder.ownBid.capabilities ∧
      get o.msg (lit "shard_id") = bidder.ownBid.shardId := by
  unfold handleTaskBidRequest at ho
  dsimp only at ho
  split at ho
  · exact absurd ho List.not_mem_nil
  · rename_i hguard
    simp only [not_or, Bool.not_eq_false] at hguard
    split at ho
    · exact absurd ho List.not_mem_nil
    · rename_i dest _
      -- A bid to a requester that is a number raises, and is not sent.
      cases dest with
      | num q => exact absurd ho List.not_mem_nil
      | none =>
          rw [List.mem_singleton.mp ho]
          exact ⟨hguard.1, rfl, rfl, rfl, rfl⟩
      | str x =>
          rw [List.mem_singleton.mp ho]
          exact ⟨hguard.1, rfl, rfl, rfl, rfl⟩

namespace WhisperNode

/-- The bids in the slot of a task, if that is open. -/
def slot (s : WhisperNode) (taskId : PyStr) : Option (List Bid) :=
  (s.bidCollections.get? (.str taskId)).map Auction.bids

/-- A bid is appended in the slot of its task, and nowhere else. -/
theorem bid_stored (s : WhisperNode) {bidder : WhisperNode} {env : NodeEnv} {request : Msg}
    {o : Send} (ho : o ∈ (bidder.handleTaskBidRequest env request).2) (taskId : PyStr) :
    (s.handleTaskBid o.msg).slot taskId = (s.slot taskId).map (fun bids =>
      bids ++ if get o.msg (lit "task_id") = .str taskId then [bidder.ownBid] else []) := by
  rcases bid_of_request ho with ⟨htruthy, hfrom, hprice, hcaps, hshard⟩
  have hsame : ∀ x : Option (List Bid), get o.msg (lit "task_id") ≠ .str taskId →
      x = x.map (fun bids =>
        bids ++ if get o.msg (lit "task_id") = .str taskId then [bidder.ownBid] else []) := by
    intro x hne
    simp only [if_neg hne, List.append_nil, Option.map_id']
  unfold handleTaskBid
  simp only [htruthy, Bool.true_eq_false, if_false, hfrom, hprice, hcaps, hshard, pyFloat_float]
  cases hkey : hashKey (get o.msg (lit "task_id")) with
  | error e =>
      -- An id that cannot be a key is not the text `taskId`.
      refine hsame _ (fun hc => ?_)
      rw [hc] at hkey
      simp only [hashKey, reduceCtorEq] at hkey
  | ok k =>
      dsimp only
      -- The slot is the one of the task exactly when the key is.
      have hhit : k = .str taskId ↔ get o.msg (lit "task_id") = .str taskId := by
        rw [← hashKey_eq_str, hkey, Except.ok.injEq]
      by_cases hk : k = .str taskId
      · have hid := hhit.mp hk
        unfold slot
        rw [hk]
        cases hcol : s.bidCollections.get? (.str taskId) with
        | none => simp only [hcol, Option.map_none]
        | some col =>
            simp only [Dict.get?_set_self, Option.map_some, if_pos hid]
            rfl
      · rw [← hsame _ (fun hc => hk (hhit.mpr hc))]
        cases s.bidCollections.get? k with
        | none => rfl
        | some col =>
            unfold slot
            dsimp only
            rw [Dict.get?_set_of_ne _ _ _ _ (fun hc => hk hc.symm)]

/-- The same for all the messages of an arrival. -/
theorem bids_stored (s : WhisperNode) {bidder : WhisperNode} {env : NodeEnv} {request : Msg}
    (out : List Send) (hout : ∀ o ∈ out, o ∈ (bidder.handleTaskBidRequest env request).2)
    (taskId : PyStr) :
    (out.foldl (fun node o => node.handleTaskBid o.msg) s).slot taskId =
      (s.slot taskId).map (fun bids => bids ++
        (out.filter (fun o => get o.msg (lit "task_id") = .str taskId)).map
          (fun _ => bidder.ownBid)) := by
  induction out generalizing s with
  | nil => simp only [List.foldl_nil, List.filter_nil, List.map_nil, List.append_nil,
      Option.map_id']
  | cons o out ih =>
      rw [List.foldl_cons, ih _ (fun o' ho' => hout o' (List.mem_cons_of_mem _ ho')),
        bid_stored s (hout o (List.mem_cons_self ..)), Option.map_map, List.filter_cons]
      congr 1
      funext bids
      by_cases hid : get o.msg (lit "task_id") = .str taskId
      · simp only [Function.comp, if_pos hid, decide_eq_true hid, if_true, List.map_cons,
          List.append_assoc, List.singleton_append]
      · simp only [Function.comp, if_neg hid, decide_eq_false hid, Bool.false_eq_true, if_false,
          List.append_nil]

theorem handleTaskBid_config (s : WhisperNode) (msg : Msg) :
    (s.handleTaskBid msg).membership = s.membership ∧
      (s.handleTaskBid msg).runtime = s.runtime := by
  refine ⟨(bid_frame s).2, ?_⟩
  unfold handleTaskBid
  dsimp only
  split
  · rfl
  · split
    · split
      · rfl
      · rfl
    · rfl

theorem handleTaskBids_config (s : WhisperNode) (out : List Send) :
    (out.foldl (fun node o => node.handleTaskBid o.msg) s).membership = s.membership ∧
      (out.foldl (fun node o => node.handleTaskBid o.msg) s).runtime = s.runtime := by
  induction out generalizing s with
  | nil => exact ⟨rfl, rfl⟩
  | cons o out ih =>
      rw [List.foldl_cons, (ih _).1, (ih _).2]
      exact handleTaskBid_config s o.msg

/-- The award of a node to itself touches the ledger only. -/
theorem handleTaskAward_config (P : Primitives) (s : WhisperNode) (env : NodeEnv) (msg : Msg) :
    (s.handleTaskAward P env msg).1.membership = s.membership ∧
      (s.handleTaskAward P env msg).1.runtime = s.runtime ∧
      (s.handleTaskAward P env msg).1.bidCollections = s.bidCollections := by
  unfold handleTaskAward
  split
  · split
    · exact ⟨rfl, rfl, rfl⟩
    · exact ⟨rfl, rfl, rfl⟩
  · exact ⟨rfl, rfl, rfl⟩

/-- An auction whose bids come from nodes issues an award, to the first of them with
    the least sum. -/
theorem runAuction_ok (F : FloatSort Bid) (s : WhisperNode) (uuid taskId : PyStr) (shardId : Int)
    (hbids : ∀ b ∈ s.candidates taskId, ∃ bidder : WhisperNode, b = bidder.ownBid) :
    ∃ winner, FirstLeast (bidSum shardId) (s.candidates taskId) winner ∧
      s.runAuction F uuid taskId shardId =
        .ok (winner.sender, awardMsg s.membership.ourKey uuid taskId shardId winner) := by
  have hprices : ∀ b ∈ s.candidates taskId, b.priceAxl ≠ .nan := by
    intro b hb
    rcases hbids b hb with ⟨bidder, hown⟩
    rw [hown, ownBid]
    simp only [ne_eq, reduceCtorEq, not_false_eq_true]
  have hsome : s.candidates taskId ≠ [] :=
    List.append_ne_nil_of_right_ne_nil _ (List.cons_ne_nil _ _)
  have hexists : ∃ winner, Wins F shardId (s.candidates taskId) winner := exists_wins F hsome
  rcases hexists with ⟨winner, hw⟩
  rcases hbids winner hw.mem with ⟨bidder, hown⟩
  have hsender : winner.sender = .str bidder.membership.ourKey := by
    rw [hown]
    rfl
  have haward := (runAuction_winner F s uuid taskId _ shardId _).mpr ⟨winner, hw, hsender, rfl⟩
  rw [← hsender] at haward
  exact ⟨winner, (wins_iff F hprices winner).mp hw, haward⟩

theorem ownBid_congr {s s' : WhisperNode} (hmembership : s'.membership = s.membership)
    (hruntime : s'.runtime = s.runtime) : s'.ownBid = s.ownBid := by
  unfold ownBid
  rw [hmembership, hruntime]

/-- The key of a node is that of its own bid. -/
theorem ourKey_of_ownBid {s s' : WhisperNode} (h : s'.ownBid = s.ownBid) :
    s'.membership.ourKey = s.membership.ourKey := PyVal.str.inj (congrArg Bid.sender h)

theorem candidates_of_slot {s : WhisperNode} {taskId : PyStr} {bids : List Bid}
    (h : s.slot taskId = some bids) : s.candidates taskId = bids ++ [s.ownBid] := by
  rcases Option.map_eq_some_iff.mp h with ⟨col, hcol, hbids⟩
  unfold candidates
  rw [hcol, ← hbids]

end WhisperNode

/-! ## Auctions -/

namespace AuctionHouse

/-- How far the auction of a task is, and what that says about the slot and the
    awards. -/
inductive Progress (s : AuctionHouse) (taskId : PyStr) : Prop
  | idle (hstage : s.stages taskId = .idle) (hstart : ¬ Opened (starts taskId) s.log)
      (hfinish : ¬ Opened (finishes taskId) s.log) (hawards : s.awardsOf taskId = [])
  | waiting (shardId : Int) (hstage : s.stages taskId = .waiting shardId)
      (hstart : Opened (starts taskId) s.log) (hfinish : ¬ Opened (finishes taskId) s.log)
      (honly : ∀ env n peers, .start env taskId n peers ∈ s.log → n = shardId)
      (hawards : s.awardsOf taskId = [])
      (hslot : s.node.slot taskId = some (gathered taskId s.log))
  | ended (shardId : Int) (uuid : PyStr) (winner : Bid) (hstage : s.stages taskId = .ended)
      (hfinish : Opened (finishes taskId) s.log)
      (hclosed : Closed (starts taskId) (finishes taskId) s.log)
      (honly : ∀ env n peers, .start env taskId n peers ∈ s.log → n = shardId)
      (hwinner : FirstLeast (bidSum shardId) (gathered taskId s.log ++ [s.node.ownBid]) winner)
      (hawards : s.awardsOf taskId =
        [(winner.sender, awardMsg s.node.membership.ourKey uuid taskId shardId winner)])
  | unsent (hstage : s.stages taskId = .ended)
      (honly : ∀ env n peers, .start env taskId n peers ∈ s.log →
        ¬ Addressable (s.meeting peers).getAlivePeers)

theorem opened_starts {taskId : PyStr} {log : List AuctionEvent} :
    Opened (starts taskId) log ↔
      ∃ env shardId peers, .start env taskId shardId peers ∈ log := by
  unfold Opened
  constructor
  · rintro ⟨e, he, hstarts⟩
    cases e with
    | start env taskId' shardId peers =>
        rw [starts, decide_eq_true_iff] at hstarts
        exact ⟨env, shardId, peers, hstarts ▸ he⟩
    | bid bidder env request => exact absurd hstarts Bool.false_ne_true
    | finish env taskId' => exact absurd hstarts Bool.false_ne_true
  · rintro ⟨env, shardId, peers, he⟩
    exact ⟨_, he, decide_eq_true rfl⟩

theorem opened_finishes {taskId : PyStr} {log : List AuctionEvent} :
    Opened (finishes taskId) log ↔ ∃ env, .finish env taskId ∈ log := by
  unfold Opened
  constructor
  · rintro ⟨e, he, hfinishes⟩
    cases e with
    | finish env taskId' =>
        rw [finishes, decide_eq_true_iff] at hfinishes
        exact ⟨env, hfinishes ▸ he⟩
    | bid bidder env request => exact absurd hfinishes Bool.false_ne_true
    | start env taskId' shardId peers => exact absurd hfinishes Bool.false_ne_true
  · rintro ⟨env, he⟩
    exact ⟨_, he, decide_eq_true rfl⟩

theorem not_closed {taskId : PyStr} {log : List AuctionEvent}
    (h : ¬ Opened (finishes taskId) log) : ¬ Closed (starts taskId) (finishes taskId) log := by
  rintro ⟨e, he, hfinishes⟩
  exact h ⟨e, (List.dropWhile_sublist _).subset he, hfinishes⟩

variable {s s' : AuctionHouse} {taskId : PyStr} {e : AuctionEvent}

/-- An event that neither begins nor ends the auction of the task: the bids it
    brings go into the slot if that is open. -/
theorem Progress.elsewhere (h : s.Progress taskId) (hlog : s'.log = s.log ++ [e])
    (hstart : starts taskId e = false) (hfinish : finishes taskId e = false)
    (hstage : s'.stages taskId = s.stages taskId) (hawards : s'.awardsOf taskId = s.awardsOf taskId)
    (hown : s'.node.ownBid = s.node.ownBid)
    (hslot : s'.node.slot taskId =
      (s.node.slot taskId).map (fun bids => bids ++ bidsFor taskId e)) :
    s'.Progress taskId := by
  have hstarts : Opened (starts taskId) s'.log ↔ Opened (starts taskId) s.log := by
    rw [hlog, opened_snoc, hstart]
    simp only [Bool.false_eq_true, or_false]
  have hfinishes : Opened (finishes taskId) s'.log ↔ Opened (finishes taskId) s.log := by
    rw [hlog, opened_snoc, hfinish]
    simp only [Bool.false_eq_true, or_false]
  have hstarted : ∀ env n peers, .start env taskId n peers ∈ s'.log →
      .start env taskId n peers ∈ s.log := by
    intro env n peers hn
    rw [hlog, List.mem_append, List.mem_singleton] at hn
    refine hn.resolve_right (fun hc => ?_)
    rw [← hc, starts, decide_eq_false_iff_not] at hstart
    exact hstart rfl
  -- Nothing of this auction is in the event but bids.
  cases h with
  | idle hidle hnot hnot' hnone =>
      exact .idle (hstage.trans hidle) (fun hc => hnot (hstarts.mp hc))
        (fun hc => hnot' (hfinishes.mp hc)) (hawards.trans hnone)
  | waiting shardId hwaiting hopened hnot hone hnone hbids =>
      refine .waiting shardId (hstage.trans hwaiting) (hstarts.mpr hopened)
        (fun hc => hnot (hfinishes.mp hc))
        (fun env n peers hn => hone env n peers (hstarted env n peers hn))
        (hawards.trans hnone) ?_
      unfold gathered
      rw [hslot, hbids, hlog, between_snoc_open hopened (not_closed hnot), hfinish,
        List.flatMap_append]
      simp only [Bool.false_eq_true, if_false, Option.map_some, List.flatMap_singleton, gathered]
  | ended shardId uuid winner hended hopened hclosed hone hwinner hone' =>
      -- After the closing no bid counts.
      have hsame : gathered taskId s'.log = gathered taskId s.log := by
        unfold gathered
        rw [hlog, between_snoc_closed hclosed]
      refine .ended shardId uuid winner (hstage.trans hended) (hfinishes.mpr hopened) ?_
        (fun env n peers hn => hone env n peers (hstarted env n peers hn)) ?_ ?_
      · rw [hlog]
        exact (closed_snoc (opened_of_closed hclosed)).mpr (Or.inl hclosed)
      · rw [hsame, hown]
        exact hwinner
      · rw [hawards, WhisperNode.ourKey_of_ownBid hown]
        exact hone'
  | unsent hended hone =>
      exact .unsent (hstage.trans hended)
        (fun env n peers hn => hone env n peers (hstarted env n peers hn))

/-- Every bid that is gathered is the bid of a node. -/
theorem gathered_own {log : List AuctionEvent} {b : Bid} (hb : b ∈ gathered taskId log) :
    ∃ bidder : WhisperNode, b = bidder.ownBid := by
  unfold gathered at hb
  rcases List.mem_flatMap.mp hb with ⟨e, _, hbe⟩
  cases e with
  | start env taskId' shardId peers => exact absurd hbe List.not_mem_nil
  | finish env taskId' => exact absurd hbe List.not_mem_nil
  | bid bidder env request =>
      rcases List.mem_map.mp hbe with ⟨_, _, hown⟩
      exact ⟨bidder, hown.symm⟩

/-- The slot of a task that is opened is empty, and the others stay. -/
theorem slot_opened (node : WhisperNode) (M : MembershipLayer) (taskId taskId' : PyStr) :
    ({ node with
      membership := M
      bidCollections := node.bidCollections.set (.str taskId) {} }).slot taskId' =
      if taskId' = taskId then some [] else node.slot taskId' := by
  unfold WhisperNode.slot
  rw [Dict.get?_set]
  by_cases hid : taskId' = taskId
  · rw [if_pos hid, if_pos (congrArg _ hid)]
    rfl
  · rw [if_neg hid, if_neg (fun hc => hid (Key.str.inj hc))]

/-- Closing a slot leaves the others. -/
theorem slot_popped (s : AuctionHouse) {taskId' : PyStr} (hid : taskId' ≠ taskId) :
    (s.popped taskId).slot taskId' = s.node.slot taskId' := by
  unfold WhisperNode.slot popped
  dsimp only
  rw [Dict.get?_erase_of_ne _ _ _ (fun hc => hid (Key.str.inj hc))]

/-- An auction begins whose request goes out. -/
theorem Progress.opened (h : s.Progress taskId) (hidle : s.stages taskId = .idle) {shardId : Int}
    {env : NodeEnv} {peers : Dict Key PeerInfo}
    (hlog : s'.log = s.log ++ [.start env taskId shardId peers])
    (hstage : s'.stages taskId = .waiting shardId) (hawards : s'.awards = s.awards)
    (hslot : s'.node.slot taskId = some []) : s'.Progress taskId := by
  have hkept : s'.awardsOf taskId = s.awardsOf taskId := by
    unfold awardsOf
    rw [hawards]
  cases h with
  | waiting n hwaiting => simp only [hidle, reduceCtorEq] at hwaiting
  | ended n uuid winner hended => simp only [hidle, reduceCtorEq] at hended
  | unsent hended => simp only [hidle, reduceCtorEq] at hended
  | idle _ hstart hfinish hnone =>
      refine .waiting shardId hstage ?_ ?_ ?_ (hkept.trans hnone) ?_
      · rw [hlog]
        exact opened_snoc.mpr (Or.inr (decide_eq_true rfl))
      · rw [hlog, opened_snoc]
        rintro (hc | hc)
        · exact hfinish hc
        · exact absurd hc Bool.false_ne_true
      · -- The opening is the only one in the log.
        intro env' n peers' hn
        rw [hlog, List.mem_append, List.mem_singleton] at hn
        rcases hn with hn | hn
        · exact absurd (opened_starts.mpr ⟨env', n, peers', hn⟩) hstart
        · injection hn
      · rw [hslot, hlog]
        unfold gathered
        rw [between_snoc_unopened hstart rfl, starts, if_pos (decide_eq_true rfl)]
        rfl

/-- An auction begins whose request meets a peer that nothing can be sent to. -/
theorem Progress.unopened (h : s.Progress taskId) (hidle : s.stages taskId = .idle)
    {shardId : Int} {env : NodeEnv} {peers : Dict Key PeerInfo}
    (hlog : s'.log = s.log ++ [.start env taskId shardId peers])
    (hstage : s'.stages taskId = .ended)
    (hnot : ¬ Addressable (s'.meeting peers).getAlivePeers) : s'.Progress taskId := by
  cases h with
  | waiting n hwaiting => simp only [hidle, reduceCtorEq] at hwaiting
  | ended n uuid winner hended => simp only [hidle, reduceCtorEq] at hended
  | unsent hended => simp only [hidle, reduceCtorEq] at hended
  | idle _ hstart =>
      refine .unsent hstage (fun env' n peers' hn => ?_)
      rw [hlog, List.mem_append, List.mem_singleton] at hn
      rcases hn with hn | hn
      · exact absurd (opened_starts.mpr ⟨env', n, peers', hn⟩) hstart
      · rw [AuctionEvent.start.injEq] at hn
        rw [hn.2.2.2]
        exact hnot

/-- An auction ends. What was gathered is what it ranks. -/
theorem Progress.closed (h : s.Progress taskId) {shardId : Int} {env : NodeEnv} {winner : Bid}
    {uuid : PyStr} (hwaiting : s.stages taskId = .waiting shardId)
    (hwinner : FirstLeast (bidSum shardId) (s.node.candidates taskId) winner)
    (hlog : s'.log = s.log ++ [.finish env taskId]) (hstage : s'.stages taskId = .ended)
    (hawards : s'.awards = s.awards ++ [(taskId, winner.sender,
      awardMsg s.node.membership.ourKey uuid taskId shardId winner)])
    (hown : s'.node.ownBid = s.node.ownBid) : s'.Progress taskId := by
  cases h with
  | idle hidle => simp only [hwaiting, reduceCtorEq] at hidle
  | ended n uuid winner hended => simp only [hwaiting, reduceCtorEq] at hended
  | unsent hended => simp only [hwaiting, reduceCtorEq] at hended
  | waiting n hstage' hstart hfinish honly hnone hslot =>
      have hn : n = shardId := by
        rw [hwaiting] at hstage'
        injection hstage' with hn
        exact hn.symm
      -- The closing itself brings no bid.
      have hgathered : gathered taskId s'.log = gathered taskId s.log := by
        unfold gathered
        rw [hlog, between_snoc_open hstart (not_closed hfinish), finishes,
          if_pos (decide_eq_true rfl), List.append_nil]
      -- So the candidates are what was gathered, and the own bid.
      have hcandidates : s.node.candidates taskId =
          gathered taskId s'.log ++ [s'.node.ownBid] := by
        rw [hgathered, hown, WhisperNode.candidates_of_slot hslot]
      refine .ended shardId uuid winner hstage ?_ ?_ ?_ (hcandidates ▸ hwinner) ?_
      · rw [hlog]
        exact opened_snoc.mpr (Or.inr (decide_eq_true rfl))
      · rw [hlog]
        exact (closed_snoc hstart).mpr (Or.inr (decide_eq_true rfl))
      · intro env' m peers hm
        rw [hlog, List.mem_append, List.mem_singleton] at hm
        rcases hm with hm | hm
        · rw [← hn]
          exact honly env' m peers hm
        · cases hm
      · rw [WhisperNode.ourKey_of_ownBid hown]
        unfold awardsOf at hnone ⊢
        rw [hawards, List.filter_append, List.map_append, hnone]
        simp only [List.nil_append, decide_true, List.filter_cons_of_pos, List.filter_nil,
          List.map_cons, List.map_nil]

/-- A node has awarded a task, to itself or to another. -/
theorem awarded_config (P : Primitives) (s : AuctionHouse) (env : NodeEnv) (taskId : PyStr)
    (dest : PyVal) (msg : Msg) (u : WhisperNode)
    (hu : u = if dest = .str s.node.membership.ourKey
      then ((s.popped taskId).handleTaskAward P env msg).1 else s.popped taskId) :
    u.ownBid = s.node.ownBid ∧ u.bidCollections = (s.popped taskId).bidCollections := by
  by_cases hself : dest = .str s.node.membership.ourKey
  · rw [hu, if_pos hself]
    rcases WhisperNode.handleTaskAward_config P (s.popped taskId) env msg with
      ⟨hmembership, hruntime, hcollections⟩
    exact ⟨WhisperNode.ownBid_congr hmembership hruntime, hcollections⟩
  · rw [hu, if_neg hself]
    exact ⟨rfl, rfl⟩

/-- The awards of the other auctions stay. -/
theorem awardsOf_snoc {taskId' : PyStr} {award : PyVal × Msg}
    (hawards : s'.awards = s.awards ++ [(taskId, award)]) (hid : taskId' ≠ taskId) :
    s'.awardsOf taskId' = s.awardsOf taskId' := by
  unfold awardsOf
  rw [hawards, List.filter_append, List.map_append]
  simp only [decide_eq_false (Ne.symm hid), List.filter_cons, List.filter_nil, Bool.false_eq_true,
    if_false, List.map_nil, List.append_nil]

/-- An event keeps every auction where the log says it is. -/
theorem step_conducted (P : Primitives) (F : FloatSort Bid) (h : ∀ taskId, s.Progress taskId)
    (hstep : s.step P F e = some s') : ∀ taskId, s'.Progress taskId := by
  intro taskId'
  cases e with
  | start env taskId shardId peers =>
      simp only [step] at hstep
      split at hstep
      · rename_i hidle
        rw [← Option.some.inj hstep]
        by_cases hid : taskId' = taskId
        · rw [hid]
          by_cases hsent : Addressable (s.meeting peers).getAlivePeers
          · refine (h taskId).opened hidle rfl ?_ rfl ?_
            · rw [broadcast_ok _ hsent, if_pos rfl]
              exact Function.update_self ..
            · rw [slot_opened, if_pos rfl]
          · refine (h taskId).unopened hidle rfl ?_ hsent
            rw [broadcast_error _ hsent, if_neg (by simp only [reduceCtorEq, not_false_eq_true])]
            exact Function.update_self ..
        · refine (h taskId').elsewhere rfl (decide_eq_false (Ne.symm hid)) rfl
            (Function.update_of_ne hid ..) rfl rfl ?_
          rw [slot_opened, if_neg hid]
          simp only [bidsFor, List.append_nil, Option.map_id']
      · simp only [reduceCtorEq] at hstep
  | bid bidder env request =>
      rw [step, Option.some.injEq] at hstep
      rw [← hstep]
      rcases handleTaskBids_config s.node (bidder.handleTaskBidRequest env request).2 with
        ⟨hmembership, hruntime⟩
      exact (h taskId').elsewhere rfl rfl rfl rfl rfl
        (WhisperNode.ownBid_congr hmembership hruntime)
        (bids_stored s.node _ (fun _ ho => ho) taskId')
  | finish env taskId =>
      simp only [step] at hstep
      split at hstep
      · rename_i shardId hwaiting
        -- All the bids in the slot are those of nodes, so there is an award.
        have hbids : ∀ b ∈ s.node.candidates taskId, ∃ bidder : WhisperNode,
            b = bidder.ownBid := by
          intro b hb
          cases h taskId with
          | idle hidle => simp only [hwaiting, reduceCtorEq] at hidle
          | ended n uuid winner hended => simp only [hwaiting, reduceCtorEq] at hended
          | unsent hended => simp only [hwaiting, reduceCtorEq] at hended
          | waiting n _ _ _ _ _ hslot =>
              rw [WhisperNode.candidates_of_slot hslot, List.mem_append, List.mem_singleton] at hb
              rcases hb with hb | hb
              · exact gathered_own hb
              · exact ⟨s.node, hb⟩
        rcases WhisperNode.runAuction_ok F s.node env.uuid taskId shardId hbids with
          ⟨winner, hwinner, hrun⟩
        rw [hrun] at hstep
        rw [← Option.some.inj hstep]
        rcases awarded_config P s env taskId winner.sender _ _ rfl with ⟨hown, hcollections⟩
        by_cases hid : taskId' = taskId
        · rw [hid]
          exact (h taskId).closed hwaiting hwinner rfl (Function.update_self ..) rfl hown
        · refine (h taskId').elsewhere rfl rfl (decide_eq_false (Ne.symm hid))
            (Function.update_of_ne hid ..) (awardsOf_snoc rfl hid) hown ?_
          rw [WhisperNode.slot, hcollections, ← WhisperNode.slot, slot_popped s hid]
          simp only [bidsFor, List.append_nil, Option.map_id']
      · simp only [reduceCtorEq] at hstep

/-- An auction that is where the log says it is has been fair. -/
theorem fair_of_progress (h : ∀ taskId, s.Progress taskId) : s.Fair := by
  intro env taskId shardId peers hstarted hsent
  cases h taskId with
  | idle _ hstart => exact absurd (opened_starts.mpr ⟨env, shardId, peers, hstarted⟩) hstart
  | waiting n _ _ hfinish _ hnone _ =>
      exact Or.inl ⟨fun env' hc => hfinish (opened_finishes.mpr ⟨env', hc⟩), hnone⟩
  | ended n uuid winner _ hfinish _ honly hwinner hawards =>
      rw [← honly env shardId peers hstarted] at hwinner hawards
      exact Or.inr ⟨opened_finishes.mp hfinish, uuid, winner, hwinner, hawards⟩
  | unsent _ honly => exact absurd hsent (honly env shardId peers hstarted)

/-- Of any number of auctions at the same time, with whatever bids in whatever
    order and whatever peers, each one that could send its request and ends issues
    one award, to the first of the bids for its task with the least sum. -/
theorem auctions_fair (P : Primitives) (F : FloatSort Bid) (node : WhisperNode)
    (es : List AuctionEvent) :
    Machine.Throughout (step P F) Fair
      { node := { node with bidCollections := Dict.empty } } es := by
  refine (Machine.throughout_of_along (step P F) (fun s => ∀ taskId, s.Progress taskId)
    (fun _ _ => True) (fun s e s' h _ hstep => step_conducted P F h hstep) _ es (fun taskId => ?_)
    (Machine.along_of_forall _ _ _ _ (fun _ _ _ => trivial))).mono (fun s => fair_of_progress)
  refine .idle rfl ?_ ?_ rfl
  · rintro ⟨e, he, _⟩
    exact absurd he List.not_mem_nil
  · rintro ⟨e, he, _⟩
    exact absurd he List.not_mem_nil

end AuctionHouse

namespace Priced

/-- The sum without rounding. -/
def exactSum (shardId : Int) (b : Bid) : ℚ :=
  b.priceAxl.value + if pyEq b.shardId (.int shardId) then 0 else 5 / 1000

def member (key : PyStr) (shardId : Int) (price : ℚ) : WhisperNode where
  membership := { ourKey := key, ourShardId := shardId, ourPriceAxl := price }
  ledger := { ourKey := key }
  runtime := { shardId := shardId }
  cipher := ⟨none⟩

/-- The home node of the second shard asks for 1, a node of the third for the float
    next to 0.995. -/
def home : WhisperNode := member (lit "b") 2 1

def rival : WhisperNode := member (lit "c") 3 (double (995 / 1000))

def house : AuctionHouse where
  node := member (lit "a") 1 3

def request : Msg := bidRequestMsg (lit "a") (lit "id") (lit "t") 2

/-- Both are known, and both answer. -/
def events : List AuctionEvent :=
  [.start NodeEnv.plain (lit "t") 2
      ((Dict.empty.set (.str (lit "b")) { lastSeen := 0 }).set (.str (lit "c")) { lastSeen := 0 }),
    .bid home NodeEnv.plain request, .bid rival NodeEnv.plain request,
    .finish NodeEnv.plain (lit "t")]

/-- A peer is known under a number. -/
def numbered : AuctionEvent :=
  .start NodeEnv.plain (lit "t") 2 (Dict.empty.set (.num 7) { lastSeen := 0 })

/-- The home node gets the task although another bid is better by less than the last
    digit of the sum. With a peer under a number the auction awards nothing. -/
theorem cheaper_passed_over :
    (∃ s, Machine.run (AuctionHouse.step reference (FloatSort.reference Bid)) house events =
        some s ∧
      (s.awardsOf (lit "t")).map Prod.fst = [.str (lit "b")] ∧
      rival.ownBid ∈ gathered (lit "t") s.log ∧
      exactSum 2 rival.ownBid < exactSum 2 home.ownBid) ∧
    ∃ s, Machine.run (AuctionHouse.step reference (FloatSort.reference Bid)) house [numbered] =
        some s ∧
      s.stages (lit "t") = .ended ∧ s.awardsOf (lit "t") = [] := by
  have hcheaper : exactSum 2 rival.ownBid < exactSum 2 home.ownBid := by decide +kernel
  constructor
  · obtain ⟨s, hs, hseen⟩ := Option.map_eq_some_iff.mp (show
      (Machine.run (AuctionHouse.step reference (FloatSort.reference Bid)) house events).map
        (fun s => ((s.awardsOf (lit "t")).map Prod.fst, gathered (lit "t") s.log)) =
      some ([.str (lit "b")], [home.ownBid, rival.ownBid]) by decide +kernel)
    rw [Prod.mk.injEq] at hseen
    refine ⟨s, hs, hseen.1, ?_, hcheaper⟩
    rw [hseen.2]
    exact List.mem_cons_of_mem _ (List.mem_singleton_self _)
  · obtain ⟨s, hs, hseen⟩ := Option.map_eq_some_iff.mp (show
      (Machine.run (AuctionHouse.step reference (FloatSort.reference Bid)) house [numbered]).map
        (fun s => (s.stages (lit "t"), (s.awardsOf (lit "t")).length)) =
      some (.ended, 0) by decide +kernel)
    rw [Prod.mk.injEq] at hseen
    exact ⟨s, hs, hseen.1, List.length_eq_zero_iff.mp hseen.2⟩

end Priced

end WhisperNet
