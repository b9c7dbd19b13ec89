import AG2PC.Backend.Messages

/-!
# The parties never lose step

The two parties' scripts are made of phases that fit together, so that no order of the steps of their
threads makes one read what was meant for another receive, or leaves both waiting.

* `Phase.chunks` — the garbled circuit streams through the two chunk pipes, whatever the number of ANDs.
* `Fit` — scripts written so far fit; every function of a party keeps two scripts fitting.
* `parties_inStep` — sessions never lose step.
-/

namespace AG2PC.Messages

open Library.Channels

theorem alice_ne_bob : Party.alice ≠ .bob := by decide

theorem machine_peer : machine.peer .alice = .bob := rfl

/-! ### Chunks -/

/-- The garble pass fills a chunk and goes on, or publishes what there is and ends. -/
theorem garbleGates_cases {n : ℕ} (hn : n < kBatch) (gs : List Gate) :
    (n + countAnds gs = 0 ∧ garbleGates n gs = [.pipe .close]) ∨
    (0 < n + countAnds gs ∧ n + countAnds gs < kBatch ∧
      garbleGates n gs = [.pipe (.publish (n + countAnds gs)), .pipe .close]) ∨
    ∃ gs', kBatch + countAnds gs' = n + countAnds gs ∧
      garbleGates n gs = .pipe (.publish kBatch) :: .pipe .producerSlot :: garbleGates 0 gs' := by
  induction gs generalizing n with
  | nil =>
    by_cases h : 0 < n
    · exact .inr (.inl ⟨h, hn, by simp [garbleGates, h, countAnds]⟩)
    · exact .inl ⟨by simpa [countAnds] using h, by simp [garbleGates, h]⟩
  | cons g gs ih =>
    have hcount : countAnds (g :: gs) = countAnds gs + if g.isAnd then 1 else 0 := List.countP_cons
    rw [garbleGates]
    split_ifs with hand hfull
    · refine .inr (.inr ⟨gs, ?_, by rw [hfull]⟩)
      rw [hcount, if_pos hand]
      omega
    · rw [hcount, if_pos hand, show n + (countAnds gs + 1) = n + 1 + countAnds gs by omega]
      exact ih (by omega)
    · rw [hcount, if_neg hand]
      exact ih hn

/-- The evaluate pass uses up its chunk and waits for another, or ends with it. -/
theorem evaluateGates_cases {n loc : ℕ} (hloc : loc ≤ n) (gs : List Gate) :
    (loc + countAnds gs ≤ n ∧ evaluateGates n loc gs = [.pipe .release]) ∨
    ∃ gs', n + (countAnds gs' + 1) = loc + countAnds gs ∧
      evaluateGates n loc gs = [.pipe .release, .pipe (.consumerSlot (.evaluate gs'))] := by
  induction gs generalizing loc with
  | nil => exact .inl ⟨by simpa [countAnds] using hloc, rfl⟩
  | cons g gs ih =>
    have hcount : countAnds (g :: gs) = countAnds gs + if g.isAnd then 1 else 0 := List.countP_cons
    rw [evaluateGates]
    split_ifs with hand hfull
    · refine .inr ⟨gs, ?_, rfl⟩
      rw [hcount, if_pos hand]
      omega
    · rw [hcount, if_pos hand, show loc + (countAnds gs + 1) = loc + 1 + countAnds gs by omega]
      exact ih (by omega)
    · rw [hcount, if_neg hand]
      exact ih hloc

/-- The evaluate pass needs its first chunk at its first AND. -/
theorem evaluateStart_cases (gs : List Gate) :
    (countAnds gs = 0 ∧ evaluateStart gs = []) ∨
    ∃ gs', countAnds gs = countAnds gs' + 1 ∧
      evaluateStart gs = [.pipe (.consumerSlot (.evaluate gs'))] := by
  induction gs with
  | nil => exact .inl ⟨rfl, rfl⟩
  | cons g gs ih =>
    have hcount : countAnds (g :: gs) = countAnds gs + if g.isAnd then 1 else 0 := List.countP_cons
    rw [evaluateStart, hcount]
    split_ifs with hand
    · exact .inr ⟨gs, rfl, rfl⟩
    · exact ih

/-- The sender job with `pos` gates sent. -/
abbrev sender (call pos : ℕ) : List Act := [.pipe (.consumerSlot (.sendChunks call .io pos))]

/-- The threads in the middle of the stream: what the main threads are at, the sender with `base`
gates sent, the receiver with `base` of `N` received, and nothing in the pipes. -/
abbrev streaming (call N base : ℕ) (garble evaluate : List Act) (rp rq : List Cmd) :
    Config Socket Msg Loop :=
  ⟨[garble.map .act ++ rp, (sender call base).map .act],
    [evaluate.map .act ++ rq, (recvChunks call .io N base).map .act], {}, {}⟩

theorem recvChunks_of_lt (call : ℕ) {N base : ℕ} (s : Socket) (h : base < N) :
    recvChunks call s N base =
      .pipe .producerSlot :: .io s (.recv (chunkG call base (min kBatch (N - base)))) ::
      .io s (.recv (chunkB call base (min kBatch (N - base)))) ::
      .pipe (.publish (min kBatch (N - base))) ::
      recvChunks call s N (base + min kBatch (N - base)) := by
  rw [recvChunks, if_pos h]

/-- One chunk: published, sent, received, published again and taken by the evaluator, which ends by
releasing it. -/
theorem chunk_goes {call N base n : ℕ} {garble more : List Act} {gs : List Gate} {rp rq : List Cmd}
    (hn : min kBatch (N - base) = n) (hlt : base < N) (hev : evaluateGates n 1 gs = .pipe .release :: more) :
    Goes machine .alice .bob
      (streaming call N base (.pipe (.publish n) :: garble) [.pipe (.consumerSlot (.evaluate gs))] rp rq)
      (streaming call N (base + n) garble more rp rq) := by
  have hpq := alice_ne_bob
  have hrecv := recvChunks_of_lt call .io hlt
  rw [hn] at hrecv
  unfold streaming
  rw [hrecv]
  -- the garbler publishes the chunk and its sender takes it
  refine Goes.trans (Goes.leftPipe hpq 0 rfl (publish_iff.mpr ⟨rfl, rfl, rfl⟩)) ?_
  refine Goes.trans (Goes.leftPipe hpq 1 rfl (consumerSlot_iff.mpr ⟨by simp, rfl, rfl⟩)) ?_
  -- the chunk crosses the socket into a free slot
  refine Goes.trans (Goes.rightPipe hpq 1 rfl (producerSlot_iff.mpr ⟨by decide, rfl, rfl⟩)) ?_
  refine Goes.trans (Goes.exchange hpq machine_peer .io 1 1 _ _ (.toRight (.toRight .done)) rfl rfl) ?_
  refine Goes.trans (Goes.leftPipe hpq 1 rfl (release_iff.mpr ⟨by simp, rfl, rfl⟩)) ?_
  -- the receiver publishes it, and the evaluator takes it and releases it
  refine Goes.trans (Goes.rightPipe hpq 1 rfl (publish_iff.mpr ⟨rfl, rfl, rfl⟩)) ?_
  refine Goes.trans (Goes.rightPipe hpq 0 rfl (consumerSlot_iff.mpr ⟨by simp, rfl, rfl⟩)) ?_
  rw [hev]
  exact Goes.rightPipe (c := []) hpq 0 rfl (release_iff.mpr ⟨by simp, rfl, rfl⟩)

/-- The end of the stream: the garbler closes its pipe and the receiver its own. -/
theorem stream_ends (call N : ℕ) (rp rq : List Cmd) :
    Goes machine .alice .bob (streaming call N N [.pipe .close] [] rp rq)
      ⟨[rp, []], [rq, []], ⟨[], true⟩, ⟨[], true⟩⟩ := by
  have hpq := alice_ne_bob
  unfold streaming
  rw [recvChunks, if_neg (lt_irrefl _)]
  refine Goes.trans (Goes.leftPipe (c := []) hpq 0 rfl (close_iff.mpr ⟨rfl, rfl⟩)) ?_
  refine Goes.trans (Goes.leftPipe (c := []) hpq 1 rfl (consumerSlot_iff.mpr ⟨by simp, rfl, rfl⟩)) ?_
  exact Goes.rightPipe (c := []) hpq 1 rfl (close_iff.mpr ⟨rfl, rfl⟩)

/-- What the evaluator's main thread is at when `k` ANDs are left and it holds no chunk. -/
def Awaits (k : ℕ) (evaluate : List Act) : Prop :=
  (k = 0 ∧ evaluate = []) ∨
    ∃ gs, k = countAnds gs + 1 ∧ evaluate = [.pipe (.consumerSlot (.evaluate gs))]

/-- The evaluator takes a chunk of its next `n` gates, and then waits for the gates after them. -/
theorem Awaits.take {k n : ℕ} {evaluate : List Act} (h : Awaits k evaluate) (hn : 0 < n) (hnk : n ≤ k) :
    ∃ gs more, evaluate = [.pipe (.consumerSlot (.evaluate gs))] ∧
      evaluateGates n 1 gs = .pipe .release :: more ∧ Awaits (k - n) more := by
  obtain ⟨rfl, -⟩ | ⟨gs, rfl, rfl⟩ := h
  · omega
  obtain ⟨hle, hev⟩ | ⟨gs', hcount, hev⟩ := evaluateGates_cases (show 1 ≤ n from hn) gs
  · exact ⟨gs, [], rfl, hev, .inl ⟨by omega, rfl⟩⟩
  · exact ⟨gs, _, rfl, hev, .inr ⟨gs', by omega, rfl⟩⟩

/-- The stream from any chunk boundary to its end, by the number of ANDs left. -/
theorem stream_goes (call N : ℕ) (rp rq : List Cmd) (k : ℕ) :
    ∀ (base : ℕ) (gs : List Gate) (evaluate : List Act), base + k = N → countAnds gs = k →
      Awaits k evaluate → Goes machine .alice .bob
        (streaming call N base (garbleGates 0 gs) evaluate rp rq)
        ⟨[rp, []], [rq, []], ⟨[], true⟩, ⟨[], true⟩⟩ := by
  have hK := kBatch_pos
  induction k using Nat.strong_induction_on with
  | _ k ih =>
    intro base gs evaluate hbase hgs hev
    obtain ⟨hzero, hg⟩ | ⟨hpos, hlt, hg⟩ | ⟨gs', hcount, hg⟩ := garbleGates_cases hK gs
    · -- no AND is left
      obtain ⟨-, rfl⟩ | ⟨_, hk, -⟩ := hev
      · rw [hg, show base = N by omega]
        exact stream_ends call N rp rq
      · omega
    · -- the last chunk is not full
      rw [Nat.zero_add, hgs] at hpos hlt hg
      obtain ⟨gs', more, rfl, htake, hmore⟩ := hev.take hpos le_rfl
      rw [Nat.sub_self] at hmore
      obtain ⟨-, rfl⟩ | ⟨_, hk, -⟩ := hmore
      · rw [hg]
        refine Goes.trans (chunk_goes (by omega) (by omega) htake) ?_
        rw [hbase]
        exact stream_ends call N rp rq
      · omega
    · -- a full chunk, and the garbler waits for the next slot
      rw [Nat.zero_add, hgs] at hcount
      obtain ⟨gs'', more, rfl, htake, hmore⟩ := hev.take hK (by omega)
      rw [hg]
      refine Goes.trans (chunk_goes (by omega) (by omega) htake) ?_
      refine Goes.trans (Goes.leftPipe (c := []) alice_ne_bob 0 rfl
        (producerSlot_iff.mpr ⟨by decide, rfl, rfl⟩)) ?_
      exact ih (k - kBatch) (by omega) (base + kBatch) gs' more (by omega) (by omega) hmore

/-- The garble pass and its sender job. -/
def garbleCode (call : ℕ) (gs : List Gate) : List Cmd :=
  [.newPipe, .enqueue (sender call 0), .act (.pipe .producerSlot)] ++ (garbleGates 0 gs).map .act ++
    [.join]

/-- The evaluate pass and its receiver job. -/
def evaluateCode (call : ℕ) (gs : List Gate) : List Cmd :=
  [.newPipe, .enqueue (recvChunks call .io (countAnds gs) 0)] ++ (evaluateStart gs).map .act ++ [.join]

/-- **The garbled circuit streams through**, whatever the number of ANDs. -/
theorem phase_chunks (call : ℕ) (gs : List Gate) :
    Phase machine .alice .bob (garbleCode call gs) (evaluateCode call gs) := by
  have hpq := alice_ne_bob
  intro rp rq π ρ
  refine ⟨⟨[], true⟩, ⟨[], true⟩, ?_⟩
  have hev : Awaits (countAnds gs) (evaluateStart gs) := by
    obtain ⟨hzero, hev⟩ | ⟨gs', hcount, hev⟩ := evaluateStart_cases gs
    · exact .inl ⟨hzero, hev⟩
    · exact .inr ⟨gs', hcount, hev⟩
  have hstream := stream_goes call (countAnds gs) (.join :: rp) (.join :: rq) (countAnds gs) 0 gs
    (evaluateStart gs) (by omega) rfl hev
  have hleft : garbleCode call gs ++ rp = .newPipe :: .enqueue (sender call 0) ::
      .act (.pipe .producerSlot) :: ((garbleGates 0 gs).map .act ++ .join :: rp) := by
    simp [garbleCode]
  have hright : evaluateCode call gs ++ rq = .newPipe ::
      .enqueue (recvChunks call .io (countAnds gs) 0) :: ((evaluateStart gs).map .act ++ .join :: rq) := by
    simp [evaluateCode]
  rw [hleft, hright]
  -- both parties make a pipe and hand out their job
  refine Goes.trans (Goes.leftNewPipe hpq) ?_
  refine Goes.trans (Goes.leftEnqueue hpq [] (by decide)) ?_
  refine Goes.trans (Goes.leftPipe (c := []) hpq 0 rfl (producerSlot_iff.mpr ⟨by decide, rfl, rfl⟩)) ?_
  refine Goes.trans (Goes.rightNewPipe hpq) ?_
  refine Goes.trans (Goes.rightEnqueue hpq [] (by decide)) ?_
  refine Goes.trans hstream ?_
  -- both jobs have finished
  refine Goes.trans (Goes.leftJoin hpq rfl) ?_
  exact Goes.rightJoin hpq rfl

theorem garbleGates_ports (gs : List Gate) :
    ∀ n, ∀ a ∈ garbleGates n gs, a.ports loopPorts ⊆ {.producer} := by
  induction gs with
  | nil =>
    intro n a ha
    rw [garbleGates] at ha
    split_ifs at ha <;> simp only [List.mem_cons, List.not_mem_nil, or_false] at ha
    · rcases ha with rfl | rfl <;> exact subset_refl _
    · subst ha
      exact subset_refl _
  | cons g gs ih =>
    intro n a ha
    rw [garbleGates] at ha
    split_ifs at ha
    · simp only [List.mem_cons] at ha
      rcases ha with rfl | rfl | ha
      · exact subset_refl _
      · exact subset_refl _
      · exact ih _ a ha
    · exact ih _ a ha
    · exact ih _ a ha

theorem evaluateStart_ports (gs : List Gate) :
    ∀ a ∈ evaluateStart gs, a.ports loopPorts ⊆ {.consumer} := by
  intro a ha
  obtain ⟨-, hev⟩ | ⟨gs', -, hev⟩ := evaluateStart_cases gs
  · rw [hev] at ha
    cases ha
  · rw [hev, List.mem_singleton] at ha
    subst ha
    simp [Act.ports, loopPorts]

theorem recvChunks_ports (call N : ℕ) (s : Socket) (base : ℕ) :
    ∀ a ∈ recvChunks call s N base, a.ports loopPorts ⊆ {.producer, .inn s} := by
  fun_induction recvChunks call s N base with
  | case1 base hlt n ih =>
    intro a ha
    simp only [List.mem_cons] at ha
    rcases ha with rfl | rfl | rfl | rfl | ha
    · simp [Act.ports]
    · simp [Act.ports]
    · simp [Act.ports]
    · simp [Act.ports]
    · exact ih a ha
  | case2 base hlt =>
    intro a ha
    rw [List.mem_singleton] at ha
    subst ha
    simp [Act.ports]

/-- A main thread that hands out one job keeps apart from it when the two use different ends. -/
theorem tidy_job {loopPorts : Loop → Set (Port Socket)} {job : List Act} (acts : List Act)
    {F G : Set (Port Socket)} (hjob : ∀ a ∈ job, a.ports loopPorts ⊆ F) (hacts : ∀ a ∈ acts, a.ports loopPorts ⊆ G)
    (hFG : Disjoint G F) :
    Tidy loopPorts ([.newPipe, .enqueue job] ++ acts.map .act ++ [.join] : List Cmd) := by
  intro rest hrest
  have hports : jobPorts loopPorts (job.map .act : List Cmd) ⊆ F := by
    rintro x ⟨a, ha, hx⟩
    obtain ⟨b, hb, heq⟩ := List.mem_map.mp ha
    cases heq
    exact hjob _ hb hx
  have hjoin : Apart loopPorts (.join :: rest : List Cmd) [jobPorts loopPorts (job.map .act)] :=
    ⟨List.pairwise_singleton _ _, hrest⟩
  have hmain := hjoin.append_acts (c := acts) fun a ha f hf => by
    rw [List.mem_singleton] at hf
    subst hf
    exact hFG.mono (hacts a ha) hports
  simpa [Apart] using hmain

theorem tidy_garble (call : ℕ) (gs : List Gate) : Tidy loopPorts (garbleCode call gs) := by
  refine tidy_job (.pipe .producerSlot :: garbleGates 0 gs) (F := {.consumer, .out .io})
    (G := {.producer}) ?_ ?_ (by simp)
  · intro a ha
    rw [List.mem_singleton] at ha
    subst ha
    exact subset_refl _
  · intro a ha
    rw [List.mem_cons] at ha
    rcases ha with rfl | ha
    · exact subset_refl _
    · exact garbleGates_ports gs 0 a ha

theorem tidy_evaluate (call : ℕ) (gs : List Gate) : Tidy loopPorts (evaluateCode call gs) :=
  tidy_job _ (recvChunks_ports call (countAnds gs) .io 0) (evaluateStart_ports gs) (by simp)

/-! ### Scripts that fit -/

/-- The scripts of the two parties fit, and the two are at the same place. -/
structure Fit (t₁ t₂ : Script) : Prop where
  /-- The commands are one phase. -/
  phase : Phase machine .alice .bob t₁.code t₂.code
  /-- The garbler's threads keep apart. -/
  tidy₁ : Tidy loopPorts t₁.code
  /-- The evaluator's threads keep apart. -/
  tidy₂ : Tidy loopPorts t₂.code
  /-- The COT calls are the same. -/
  cots : t₁.cots = t₂.cots
  /-- Both have minted, or neither. -/
  minted : t₁.minted = t₂.minted
  /-- The calls are as many. -/
  call : t₁.call = t₂.call

namespace Fit

variable {E : Env} {t₁ t₂ : Script}

theorem start : Fit {} {} := ⟨.nil, .nil, .nil, rfl, rfl, rfl⟩

/-- One more phase. -/
theorem add (h : Fit t₁ t₂) {X Y : List Cmd} (hphase : Phase machine .alice .bob X Y)
    (hX : Tidy loopPorts X) (hY : Tidy loopPorts Y) : Fit (t₁.add X) (t₂.add Y) :=
  ⟨h.phase.append hphase, h.tidy₁.append hX, h.tidy₂.append hY, h.cots, h.minted, h.call⟩

/-- An exchange of the main threads. -/
theorem onIo (h : Fit t₁ t₂) {x y : List (Io Msg)} (hxy : Balanced [] [] x y) :
    Fit (t₁.onIo x) (t₂.onIo y) :=
  h.add (.talk alice_ne_bob machine_peer .io hxy) (.acts _) (.acts _)

/-- Jobs on both sockets. -/
theorem duplex (h : Fit t₁ t₂) {x y x' y' : List (Io Msg)} (hio : Balanced [] [] x y')
    (hsib : Balanced [] [] y x') : Fit (t₁.duplex .alice x y) (t₂.duplex .bob x' y') :=
  h.add (.cross alice_ne_bob machine_peer le_rfl .io .sib hio hsib) (.fork (by decide) x y)
    (.fork (by decide) x' y')

/-- Bits opened by both parties, as many by one as by the other. -/
theorem openBits (h : Fit t₁ t₂) (ms : List Msg) :
    Fit (t₁.openBits .alice ms) (t₂.openBits .bob ms) :=
  h.duplex (.sends ms) (Balanced.sends ms).symm

/-- A COT call: `abit1` of one party with `abit2` of the other, on each socket. -/
theorem parallelAbit (hcot : E.CotBalanced) (h : Fit t₁ t₂) (op : CotOp) :
    Fit (t₁.parallelAbit E .alice op) (t₂.parallelAbit E .bob op) := by
  have hmsgs : ∀ r, t₁.cotMsgs E op r = t₂.cotMsgs E op r := by
    intro r
    rw [Script.cotMsgs, Script.cotMsgs, h.cots, h.call]
  have hbal : Balanced [] [] (t₂.cotMsgs E op .sender) (t₂.cotMsgs E op .receiver) :=
    (hcot t₂.cots op).map _
  have hadd : Fit
      (t₁.add (fork (exchange (Script.ioAbit1 E .alice) (t₁.cotMsgs E op .sender))
        (exchange (Script.ioAbit2 E .alice) (t₁.cotMsgs E op .receiver))))
      (t₂.add (fork (exchange (Script.ioAbit1 E .bob) (t₂.cotMsgs E op .sender))
        (exchange (Script.ioAbit2 E .bob) (t₂.cotMsgs E op .receiver)))) := by
    rw [hmsgs, hmsgs]
    unfold Script.ioAbit1 Script.ioAbit2
    cases E.senderSendsOnExtend with
    | true =>
      exact h.add (.cross alice_ne_bob machine_peer le_rfl .io .sib hbal hbal.symm)
        (.fork (by decide) _ _) (.fork (by decide) _ _)
    | false =>
      exact h.add (.cross alice_ne_bob machine_peer le_rfl .sib .io hbal hbal.symm)
        (.fork (by decide) _ _) (.fork (by decide) _ _)
  exact ⟨hadd.phase, hadd.tidy₁, hadd.tidy₂, by simp [Script.parallelAbit, h.cots], h.minted, h.call⟩

theorem genCotShares (hcot : E.CotBalanced) (h : Fit t₁ t₂) (count : ℕ) :
    Fit (t₁.genCotShares E .alice count) (t₂.genCotShares E .bob count) :=
  { h.parallelAbit hcot (.nextN count) with minted := rfl }

theorem maybeFlushCotCheck (hcot : E.CotBalanced) (h : Fit t₁ t₂) :
    Fit (t₁.maybeFlushCotCheck E .alice) (t₂.maybeFlushCotCheck E .bob) := by
  unfold Script.maybeFlushCotCheck
  rw [h.minted]
  split_ifs
  · exact { h.parallelAbit hcot .check with minted := rfl }
  · exact h

/-! ### Triples -/

theorem leakyAndHalfgate (h : Fit t₁ t₂) (L layer : ℕ) :
    Fit (t₁.leakyAndHalfgate E .alice L layer) (t₂.leakyAndHalfgate E .bob L layer) := by
  unfold Script.leakyAndHalfgate
  rw [h.call]
  exact (h.openBits _).openBits _

theorem bucketOneLayer (h : Fit t₁ t₂) (L layer : ℕ) :
    Fit (t₁.bucketOneLayer E .alice L layer) (t₂.bucketOneLayer E .bob L layer) := by
  unfold Script.bucketOneLayer
  rw [h.call]
  exact h.openBits _

theorem layeredBucketIntoAcc (hcot : E.CotBalanced) (h : Fit t₁ t₂) (B L : ℕ) :
    Fit (t₁.layeredBucketIntoAcc E .alice B L) (t₂.layeredBucketIntoAcc E .bob B L) := by
  unfold Script.layeredBucketIntoAcc
  induction List.range (B - 1) generalizing t₁ t₂ with
  | nil => exact h
  | cons k ks ih =>
    apply ih
    exact ((h.genCotShares hcot (3 * L)).leakyAndHalfgate L (k + 1)).bucketOneLayer L (k + 1)

/-- The commitment and the opening one way, the reply the other. -/
theorem feqCheck (h : Fit t₁ t₂) : Fit (t₁.feqCheck E .alice) (t₂.feqCheck E .bob) := by
  unfold Script.feqCheck
  rw [h.call]
  apply h.onIo
  exact .toRight (.toLeft (.toRight (.toRight .done)))

theorem reconcile (h : Fit t₁ t₂) (L : ℕ) :
    Fit (t₁.reconcile E .alice L) (t₂.reconcile E .bob L) := by
  unfold Script.reconcile
  rw [h.call]
  exact h.openBits _

/-- `compute_inplace`, of any number of ANDs and any bucket size. -/
theorem computeInplace (hcot : E.CotBalanced) (h : Fit t₁ t₂) (numAnds : ℕ) :
    Fit (t₁.computeInplace E .alice numAnds) (t₂.computeInplace E .bob numAnds) := by
  unfold Script.computeInplace
  split_ifs
  · exact h
  · have hlayer := (h.genCotShares hcot numAnds).leakyAndHalfgate (E := E) numAnds 0
    exact ((hlayer.layeredBucketIntoAcc hcot _ numAnds).feqCheck).reconcile numAnds

/-! ### A run -/

theorem slotMask (hcot : E.CotBalanced) (h : Fit t₁ t₂) (gs : List Gate) (left : ℕ) :
    Fit (Script.slotMask E .alice gs left t₁) (Script.slotMask E .bob gs left t₂) := by
  induction gs generalizing left t₁ t₂ with
  | nil => exact h
  | cons g gs ih =>
    unfold Script.slotMask
    split_ifs
    · exact ih (h.genCotShares hcot kLgBatch) _
    · exact ih h _
    · exact ih h _

/-- The garbler's path fits the evaluator's. -/
theorem paths (h : Fit t₁ t₂) (gs : List Gate) :
    Fit (t₁.garblerPath E gs) (t₂.evaluatorPath E gs) := by
  have hchunks : Fit (t₁.add (garbleCode t₁.call gs)) (t₂.add (evaluateCode t₂.call gs)) := by
    rw [h.call]
    exact h.add (phase_chunks _ gs) (tidy_garble _ gs) (tidy_evaluate _ gs)
  unfold Script.garblerPath Script.evaluatorPath
  dsimp only
  split_ifs
  · apply hchunks.onIo
    rw [show (t₁.add _).call = (t₂.add _).call from h.call]
    exact .toLeft (.toRight .done)
  · exact hchunks

/-- `run_source` over any gates. -/
theorem runSource (hcot : E.CotBalanced) (h : Fit t₁ t₂) (gs : List Gate) :
    Fit (t₁.runSource E .alice gs) (t₂.runSource E .bob gs) :=
  (((h.slotMask hcot gs 0).computeInplace hcot (countAnds gs)).paths gs).maybeFlushCotCheck hcot

/-! ### Outputs -/

theorem decodeTo (h : Fit t₁ t₂) (n : ℕ) (b : Bool) :
    Fit (t₁.decodeTo E n b) (t₂.decodeTo E n !b) := by
  unfold Script.decodeTo
  rw [h.call]
  cases b with
  | true => exact h.onIo (.toLeft (.toLeft .done))
  | false => exact h.onIo (.toRight (.toRight .done))

end Fit

/-- Two results fit: two scripts that fit, or one refusal. -/
def FitResult : Except String Script → Except String Script → Prop
  | .ok t₁, .ok t₂ => Fit t₁ t₂
  | .error e₁, .error e₂ => e₁ = e₂
  | _, _ => False

/-- `reveal` to any recipient. -/
theorem Fit.reveal {E : Env} {t₁ t₂ : Script} (h : Fit t₁ t₂) (n : ℕ) (recipient : Owner) :
    FitResult (t₁.reveal E .alice n recipient) (t₂.reveal E .bob n recipient) := by
  cases recipient with
  | ALICE => exact h.decodeTo n true
  | BOB => exact h.decodeTo n false
  | other => rfl
  | PUBLIC =>
    have hto : Fit (t₁.decodeTo E n false) (t₂.decodeTo E n true) := h.decodeTo n false
    have hcall := hto.call
    simp only [FitResult, Script.reveal, Script.decode, Owner.isParty]
    rw [hcall]
    exact hto.onIo (.toLeft .done)

/-! ### Inputs -/

/-- The owner of each wire, by the widths alone. -/
theorem ownerOfWire_eq (owners : List Owner) (bits : List (List UInt8)) :
    ownerOfWire owners bits =
      (owners.zip (bits.map List.length)).flatMap fun p => List.replicate p.2 p.1 := by
  rw [ownerOfWire, List.zip_map_right, List.flatMap_map]
  simp

theorem inputTotal_widths (bits : List (List UInt8)) :
    inputTotal bits = (bits.map List.length).foldl (· + ·) 0 := by
  rw [inputTotal, List.foldl_map]

/-- A party packs a bit for each wire it owns. -/
theorem length_ownXPacked (p : Party) (ownerOf : List Owner) (xs : List UInt8)
    (h : xs.length = ownerOf.length) :
    (ownXPacked p ownerOf xs).length = ownerOf.countP fun o => o.isParty p := by
  unfold ownXPacked
  induction ownerOf generalizing xs with
  | nil => rfl
  | cons o ownerOf ih =>
    cases xs with
    | nil => cases h
    | cons x xs =>
      rw [List.zip_cons_cons, List.filterMap_cons, List.countP_cons, ← ih xs (by simpa using h)]
      cases o.isParty p <;> rfl

/-- A request that is not refused has owners that are parties. -/
theorem owners_of_check {owners : List Owner} {bits : List (List UInt8)}
    (h : checkInputRequest owners bits = .ok ()) : ∀ o ∈ owners, o = .ALICE ∨ o = .BOB := by
  unfold checkInputRequest at h
  split_ifs at h with hlen hany
  intro o ho
  simp only [List.any_eq_true, not_exists, not_and] at hany
  simpa [or_iff_not_imp_left] using hany o ho

/-- The wires one party does not own are those the other does. -/
theorem length_peerIdxList (p : Party) {ownerOf : List Owner}
    (h : ∀ o ∈ ownerOf, o = .ALICE ∨ o = .BOB) :
    (ownerOf.filter fun o => !o.isParty p).length = ownerOf.countP fun o => o.isParty p.peer := by
  rw [← List.countP_eq_length_filter]
  apply List.countP_congr
  intro o ho
  rcases h o ho with rfl | rfl <;> cases p <;> simp [Owner.isParty, Party.peer]

/-- The exchange of `process_inputs`, when each party expects as many bits as the other packs. -/
theorem Fit.inputExchange {E : Env} {t₁ t₂ : Script} (h : Fit t₁ t₂) (nTotal own₁ own₂ : ℕ) :
    Fit
      ((t₁.duplex .alice ((t₁.inputMsgs E nTotal own₁).map .send)
        ((t₁.inputMsgs E nTotal own₂).map .recv)).onIo
          [.send ⟨t₁.call, .inputLabels, 0, 0, nTotal * blockBytes⟩])
      ((t₂.duplex .bob ((t₂.inputMsgs E nTotal own₂).map .send)
        ((t₂.inputMsgs E nTotal own₁).map .recv)).onIo
          [.recv ⟨t₂.call, .inputLabels, 0, 0, nTotal * blockBytes⟩]) := by
  have hmsgs : ∀ own, t₁.inputMsgs E nTotal own = t₂.inputMsgs E nTotal own := by
    intro own
    rw [Script.inputMsgs, Script.inputMsgs, h.call]
  rw [hmsgs, hmsgs, h.call]
  apply (h.duplex (.sends _) (Balanced.sends _).symm).onIo
  exact .toRight .done

/-- `process_inputs`, with any owners and widths. -/
theorem Fit.processInputs {E : Env} (hcot : E.CotBalanced) {t₁ t₂ : Script} (h : Fit t₁ t₂)
    (b : InputBatch) :
    FitResult (t₁.processInputs E .alice b.owners (b.bits .alice))
      (t₂.processInputs E .bob b.owners (b.bits .bob)) := by
  have hwidths := b.widths
  have hcheck : checkInputRequest b.owners (b.bits .alice) = checkInputRequest b.owners (b.bits .bob) := by
    have hlen := congrArg List.length hwidths
    rw [List.length_map, List.length_map] at hlen
    rw [checkInputRequest, checkInputRequest, hlen]
  have htotal : inputTotal (b.bits .alice) = inputTotal (b.bits .bob) := by
    rw [inputTotal_widths, inputTotal_widths, hwidths]
  have howner : ownerOfWire b.owners (b.bits .alice) = ownerOfWire b.owners (b.bits .bob) := by
    rw [ownerOfWire_eq, ownerOfWire_eq, hwidths]
  unfold Script.processInputs
  rw [hcheck, htotal, howner]
  cases hok : checkInputRequest b.owners (b.bits .bob) with
  | error e => rfl
  | ok =>
    have hparties : ∀ o ∈ ownerOfWire b.owners (b.bits .bob), o = .ALICE ∨ o = .BOB := by
      intro o ho
      apply owners_of_check hok
      rw [ownerOfWire, List.mem_flatMap] at ho
      obtain ⟨g, hg, hmem⟩ := ho
      obtain ⟨_, -, rfl⟩ := List.mem_map.mp hmem
      exact (List.of_mem_zip hg).1
    have hown : ∀ p, (ownXPacked p (ownerOfWire b.owners (b.bits .bob))
        (ownXBits p b.owners (b.bits p))).length =
        ((ownerOfWire b.owners (b.bits .bob)).filter fun o => !o.isParty p.peer).length := by
      intro p
      have hpeer : p.peer.peer = p := by cases p <;> rfl
      rw [length_peerIdxList _ hparties, hpeer, length_ownXPacked]
      rw [length_ownXBits]
      cases p
      · rw [howner]
      · rfl
    dsimp only [bind, Except.bind, pure, Except.pure]
    split_ifs with hzero
    · exact h
    have hcots := h.genCotShares hcot (inputTotal (b.bits .bob))
    -- each party packs as many bits as the other expects
    have hown₁ := hown .alice
    have hown₂ := hown .bob
    dsimp only [Party.peer] at hown₁ hown₂
    rw [hown₁, hown₂]
    exact hcots.inputExchange _ _ _

/-! ### Sessions -/

/-- A call keeps two scripts fitting, or is refused by both. -/
theorem Fit.call_script {E : Env} (hcot : E.CotBalanced) {t₁ t₂ : Script} (h : Fit t₁ t₂) (c : Call) :
    FitResult (c.script E .alice t₁) (c.script E .bob t₂) := by
  cases c with
  | processInputs b => exact h.processInputs hcot b
  | runSource gs => exact h.runSource hcot gs
  | reveal n recipient => exact h.reveal n recipient

/-- The calls of a session keep two scripts fitting. -/
theorem Fit.session {E : Env} (hcot : E.CotBalanced) {t₁ t₂ : Script} (h : Fit t₁ t₂)
    (calls : List Call) : Fit (session E .alice calls t₁) (session E .bob calls t₂) := by
  induction calls generalizing t₁ t₂ with
  | nil => exact h.parallelAbit hcot .fin
  | cons c cs ih =>
    have hc := h.call_script hcot c
    unfold Messages.session
    cases h₁ : c.script E .alice t₁ with
    | ok t₁' =>
      cases h₂ : c.script E .bob t₂ with
      | ok t₂' =>
        rw [h₁, h₂] at hc
        exact ih { hc with call := congrArg (· + 1) hc.call }
      | error e =>
        rw [h₁, h₂] at hc
        exact hc.elim
    | error e =>
      cases h₂ : c.script E .bob t₂ with
      | ok t₂' =>
        rw [h₁, h₂] at hc
        exact hc.elim
      | error e' => exact h

/-- **The parties never lose step.** Two parties that set a session up and make the same calls — input
phases with any owners and widths, runs of any gates with any bucket size, reveals of any width to any
recipient — and whose checks of received data all pass: in every order of the steps of their threads,
every receive reads, whole, the message it was meant for, no state is stuck before both parties have
finished, nothing is left on the way when they have, and they do finish. -/
theorem parties_inStep (E : Env) (hcot : E.CotBalanced) (calls : List Call) :
    InStep machine (start (program E calls)) := by
  have hfit := (Fit.start.parallelAbit hcot .begin).session hcot calls
  apply inStep_of_phase alice_ne_bob (fun r => by cases r <;> simp) _ hfit.phase
  intro r
  cases r with
  | alice => exact hfit.tidy₁
  | bob => exact hfit.tidy₂

/-- A COT session in which the receiver sends a block for each share, and a check is a challenge and its
answer. -/
def exchangeCot (_ : List CotOp) (op : CotOp) (r : CotRole) : List (Io ℕ) :=
  match op, r with
  | .nextN count, .sender => [.recv (count * blockBytes)]
  | .nextN count, .receiver => [.send (count * blockBytes)]
  | _, .sender => [.send blockBytes, .recv (2 * blockBytes)]
  | _, .receiver => [.recv blockBytes, .send (2 * blockBytes)]

/-- Digests of 32 bytes, a byte a bit, and a bucket of five layers. -/
def exampleEnv : Env where
  digestSize := 32
  boolBytes n := n
  bucketSize _ := 5
  senderSendsOnExtend := false
  cot := exchangeCot

theorem exampleEnv_cotBalanced : exampleEnv.CotBalanced := by
  intro before op
  cases op with
  | nextN count => exact .toLeft .done
  | _ => exact .toRight (.toLeft .done)

/-- Two bits of the garbler and none of the evaluator, their AND, and its reveal to both. -/
theorem parties_inStep_and : InStep machine (start (program exampleEnv
    [.processInputs (.zeros [.ALICE, .BOB] [2, 0]), .runSource [⟨0, 1, 2, .And⟩], .reveal 1 .PUBLIC])) :=
  parties_inStep exampleEnv exampleEnv_cotBalanced _

end AG2PC.Messages
