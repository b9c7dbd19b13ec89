import AG2PC.Backend.PassCtx
import AG2PC.Backend.Protocol
import AG2PC.Library.Lockstep

/-!
# The messages of a party

What a party sends and receives, on which socket, in which thread, in which order: the exchanges of
`triple_pool.h`, `pass_ctx.h`, `engine.h` and `protocol.h`, each function as the code walks through it
at one party, with lengths computed from what that party holds. The two parties are given the same
calls with the same programs, owners, widths and recipients, and their own input bits.

A message is its place in the code and its length in bytes. A `flush` is left out: a queue delivers
what is sent. So are the checks of received data, which abort the party when they fail.
-/

namespace AG2PC.Messages

open Library.Channels

/-! ### Messages -/

/-- The two sockets of the pair. -/
inductive Socket where
  /-- The primary channel. -/
  | io
  /-- Its sibling. -/
  | sib
  deriving DecidableEq, Repr

/-- `send_io`. -/
def sendIo : Party → Socket
  | .alice => .io
  | .bob => .sib

/-- `recv_io`. -/
def recvIo : Party → Socket
  | .alice => .sib
  | .bob => .io

/-- What a message is. -/
inductive Site where
  /-- A message of the COT extension. -/
  | cot
  /-- `process_inputs`: `share_msg`, `D_me`, `own_x_packed` and the labels. -/
  | inputShare | inputDigest | inputBits | inputLabels
  /-- `leaky_and_halfgate`: a batch of `G`, and `s_me`. -/
  | halfgate | sOpen
  /-- `bucket_one_layer`: `d_me`. -/
  | bucketOpen
  /-- `feq_check`: the commitment, the reply, and the opening with its nonce. -/
  | feqCommit | feqReply | feqOpen | feqNonce
  /-- `compute_inplace`: `xb_me` and `yb_me`. -/
  | reconcileX | reconcileY
  /-- A chunk of the garbled circuit: its ciphertexts and its bits. -/
  | chunkG | chunkB
  /-- The `c_gamma` exchange: `Lambda_AND` and the digest of `M1_t`. -/
  | lambdaAnd | gammaDigest
  /-- `decode`: `my_share` and its digest. -/
  | decodeShare | decodeDigest
  /-- `decode` to `PUBLIC`: the broadcast. -/
  | publicBits
  deriving DecidableEq, Repr

/-- A message. -/
structure Msg where
  /-- The number of the call it belongs to. -/
  call : ℕ
  /-- What it is. -/
  site : Site
  /-- The layer of the bucket, or the number of the COT call. -/
  layer : ℕ
  /-- Where in the loop it is sent: the first gate of a batch or of a chunk. -/
  pos : ℕ
  /-- Its bytes. -/
  len : ℕ
  deriving DecidableEq, Repr

/-- `sizeof(block)`. -/
def blockBytes : ℕ := 16

/-- A call of the COT extension. -/
inductive CotOp where
  /-- `begin`. -/
  | begin
  /-- `next_n(count)`. -/
  | nextN (count : ℕ)
  /-- `end` and `begin`, in `flush_cot_check`. -/
  | check
  /-- `end`, at teardown. -/
  | fin
  deriving DecidableEq, Repr

/-- The two sides of a COT session. -/
inductive CotRole where
  /-- The side of `abit1`. -/
  | sender
  /-- The side of `abit2`. -/
  | receiver
  deriving DecidableEq, Repr

/-- What the messages depend on beside the calls. -/
structure Env where
  /-- `Hash::DIGEST_SIZE`. -/
  digestSize : ℕ
  /-- The bytes `send_bool` sends, and `recv_bool` receives, for a number of bits. -/
  boolBytes : ℕ → ℕ
  /-- `get_bucket_size`, for the number of ANDs. -/
  bucketSize : ℕ → ℕ
  /-- `OTExt::kSenderSendsOnExtend`. -/
  senderSendsOnExtend : Bool
  /-- The lengths one side of a COT session sends and receives in a call, after the calls before it. -/
  cot : List CotOp → CotOp → CotRole → List (Io ℕ)

/-- In every COT call, what one side sends is what the other receives. -/
def Env.CotBalanced (E : Env) : Prop :=
  ∀ before op, Balanced [] [] (E.cot before op .sender) (E.cot before op .receiver)

/-! ### Loops on the chunk pipe -/

/-- The loops that go on by what `consumer_slot` finds. -/
inductive Loop where
  /-- The sender job of the garble pass, on a socket, with the number of gates it has sent. -/
  | sendChunks (call : ℕ) (s : Socket) (pos : ℕ)
  /-- The main thread of the evaluate pass at an AND it needs a chunk for; `gs` are the gates after
  that AND. -/
  | evaluate (gs : List Gate)

/-- An action of a thread. -/
abbrev Act := Library.Channels.Act Socket Msg Loop

/-- A command of a main thread. -/
abbrev Cmd := Library.Channels.Cmd Socket Msg Loop

/-- The ciphertexts of a chunk of `n` gates. -/
def chunkG (call pos n : ℕ) : Msg := ⟨call, .chunkG, 0, pos, 2 * n * blockBytes⟩

/-- The bits of a chunk of `n` gates. -/
def chunkB (call pos n : ℕ) : Msg := ⟨call, .chunkB, 0, pos, n⟩

/-- The main thread of the garble pass over gates, with `n` gates in the chunk it fills: it publishes
a full chunk and waits for the next slot, and in `end` publishes what is left and closes. -/
def garbleGates : ℕ → List Gate → List Act
  | n, [] => if 0 < n then [.pipe (.publish n), .pipe .close] else [.pipe .close]
  | n, g :: gs =>
    if g.isAnd then
      if n + 1 = kBatch then .pipe (.publish (n + 1)) :: .pipe .producerSlot :: garbleGates 0 gs
      else garbleGates (n + 1) gs
    else garbleGates n gs

/-- The main thread of the evaluate pass over gates, at entry `loc` of a chunk of `n`: at the next AND
after the last entry it releases the chunk and waits for another, and in `end` it releases it. -/
def evaluateGates (n : ℕ) : ℕ → List Gate → List Act
  | _, [] => [.pipe .release]
  | loc, g :: gs =>
    if g.isAnd then
      if loc = n then [.pipe .release, .pipe (.consumerSlot (.evaluate gs))]
      else evaluateGates n (loc + 1) gs
    else evaluateGates n loc gs

/-- The main thread of the evaluate pass before it has a chunk. -/
def evaluateStart : List Gate → List Act
  | [] => []
  | g :: gs => if g.isAnd then [.pipe (.consumerSlot (.evaluate gs))] else evaluateStart gs

/-- How the loops go on. The sender sends the chunk it finds and frees its slot, and ends with the
pipe; the evaluator takes the chunk for its AND, and has none to take at the end of the pipe. -/
def loopBody : Loop → Option ℕ → Option (List Act)
  | .sendChunks call s pos, some n =>
    some [.io s (.send (chunkG call pos n)), .io s (.send (chunkB call pos n)), .pipe .release,
      .pipe (.consumerSlot (.sendChunks call s (pos + n)))]
  | .sendChunks _ _ _, none => some []
  | .evaluate gs, some n => some (evaluateGates n 1 gs)
  | .evaluate _, none => none

/-- The socket a loop sends on. -/
def loopPorts : Loop → Set (Port Socket)
  | .sendChunks _ s _ => {.out s}
  | .evaluate _ => ∅

theorem evaluateGates_ports (n : ℕ) (gs : List Gate) :
    ∀ loc, ∀ a ∈ evaluateGates n loc gs, a.ports loopPorts ⊆ {.consumer} := by
  induction gs with
  | nil =>
    intro loc a ha
    rw [evaluateGates, List.mem_singleton] at ha
    subst ha
    exact subset_refl _
  | cons g gs ih =>
    intro loc a ha
    rw [evaluateGates] at ha
    split_ifs at ha with hand hloc
    · simp only [List.mem_cons, List.not_mem_nil, or_false] at ha
      rcases ha with rfl | rfl <;> simp [Act.ports, loopPorts]
    · exact ih _ a ha
    · exact ih _ a ha

/-- The two parties: a chunk pipe of two slots and two free workers each. -/
def machine : Machine Party Socket Msg Loop where
  peer := Party.peer
  peer_peer p := by cases p <;> rfl
  len := Msg.len
  depth := 2
  workers := 2
  body := loopBody
  loopPorts := loopPorts
  body_ports := by
    intro l r c h a ha
    cases l with
    | sendChunks call s pos =>
      cases r with
      | none =>
        cases h
        cases ha
      | some n =>
        cases h
        simp only [List.mem_cons, List.not_mem_nil, or_false] at ha
        rcases ha with rfl | rfl | rfl | rfl <;> simp [Act.ports, loopPorts]
    | evaluate gs =>
      cases r with
      | none => cases h
      | some n =>
        cases h
        simpa [loopPorts] using evaluateGates_ports n gs 1 a ha

/-- The receiver job of the evaluate pass, from gate `base` on. -/
def recvChunks (call : ℕ) (s : Socket) (numAnds base : ℕ) : List Act :=
  if base < numAnds then
    let n := min kBatch (numAnds - base)
    .pipe .producerSlot :: .io s (.recv (chunkG call base n)) :: .io s (.recv (chunkB call base n)) ::
      .pipe (.publish n) :: recvChunks call s numAnds (base + n)
  else [.pipe .close]
termination_by numAnds - base
decreasing_by
  have := kBatch_pos
  omega

/-! ### One party's script -/

/-- What a party's main thread does, as far as it has been written, and what the rest depends on. -/
structure Script where
  /-- The commands. -/
  code : List Cmd := []
  /-- The calls of the COT sessions. -/
  cots : List CotOp := []
  /-- `cots_minted_since_check_`. -/
  minted : Bool := false
  /-- The calls of the protocol. -/
  call : ℕ := 0

namespace Script

variable (E : Env) (p : Party) (t : Script)

/-- Commands at the end. -/
def add (c : List Cmd) : Script := { t with code := t.code ++ c }

/-- The main thread exchanges messages on `io`. -/
def onIo (x : List (Io Msg)) : Script := t.add ((exchange .io x).map .act)

/-- A job on `send_io` and a job on `recv_io`, joined. -/
def duplex (x y : List (Io Msg)) : Script :=
  t.add (fork (exchange (sendIo p) x) (exchange (recvIo p) y))

/-- `io_abit1`. -/
def ioAbit1 : Socket := if E.senderSendsOnExtend then sendIo p else recvIo p

/-- `io_abit2`. -/
def ioAbit2 : Socket := if E.senderSendsOnExtend then recvIo p else sendIo p

/-- The messages of one side in a COT call. -/
def cotMsgs (op : CotOp) (r : CotRole) : List (Io Msg) :=
  (E.cot t.cots op r).map (Io.map fun n => ⟨t.call, .cot, t.cots.length, 0, n⟩)

/-- `parallel_abit_`: a COT call on `abit1` and on `abit2`, each on its socket. -/
def parallelAbit (op : CotOp) : Script :=
  { t.add (fork (exchange (ioAbit1 E p) (t.cotMsgs E op .sender))
      (exchange (ioAbit2 E p) (t.cotMsgs E op .receiver))) with cots := t.cots ++ [op] }

/-- `gen_cot_shares`. -/
def genCotShares (count : ℕ) : Script := { t.parallelAbit E p (.nextN count) with minted := true }

/-- `flush_cot_check`. -/
def flushCotCheck : Script := { t.parallelAbit E p .check with minted := false }

/-- `maybe_flush_cot_check`. -/
def maybeFlushCotCheck : Script := if t.minted then t.flushCotCheck E p else t

/-- Each party opens bits to the other, in one or more messages. -/
def openBits (ms : List Msg) : Script := t.duplex p (ms.map .send) (ms.map .recv)

/-! ### Triples -/

/-- `leaky_and_halfgate`: `G` in batches of eight, then the `s`-open. -/
def leakyAndHalfgate (L layer : ℕ) : Script :=
  let batches := (List.range' 0 ((L + 7) / 8) 8).map fun k0 : ℕ =>
    (⟨t.call, .halfgate, layer, k0, min 8 (L - k0) * blockBytes⟩ : Msg)
  (t.openBits p batches).openBits p [⟨t.call, .sOpen, layer, 0, E.boolBytes L⟩]

/-- `bucket_one_layer`. -/
def bucketOneLayer (L layer : ℕ) : Script :=
  t.openBits p [⟨t.call, .bucketOpen, layer, 0, E.boolBytes L⟩]

/-- One iteration of the loop of `layered_bucket_into_acc`. -/
def sacrificeLayer (L : ℕ) (t : Script) (k : ℕ) : Script :=
  ((t.genCotShares E p (3 * L)).leakyAndHalfgate E p L (k + 1)).bucketOneLayer E p L (k + 1)

/-- `layered_bucket_into_acc`. -/
def layeredBucketIntoAcc (B L : ℕ) : Script := (List.range (B - 1)).foldl (sacrificeLayer E p L) t

/-- `feq_check`. -/
def feqCheck : Script :=
  let com : Msg := ⟨t.call, .feqCommit, 0, 0, E.digestSize⟩
  let reply : Msg := ⟨t.call, .feqReply, 0, 0, E.digestSize⟩
  let opening : Msg := ⟨t.call, .feqOpen, 0, 0, E.digestSize⟩
  let nonce : Msg := ⟨t.call, .feqNonce, 0, 0, blockBytes⟩
  match p with
  | .alice => t.onIo [.send com, .recv reply, .send opening, .send nonce]
  | .bob => t.onIo [.recv com, .send reply, .recv opening, .recv nonce]

/-- The Beaver opening at the end of `compute_inplace`. -/
def reconcile (L : ℕ) : Script :=
  t.openBits p [⟨t.call, .reconcileX, 0, 0, E.boolBytes L⟩, ⟨t.call, .reconcileY, 0, 0, E.boolBytes L⟩]

/-- `compute_inplace`. -/
def computeInplace (numAnds : ℕ) : Script :=
  if numAnds = 0 then t
  else
    let B := E.bucketSize numAnds
    let t := (t.genCotShares E p numAnds).leakyAndHalfgate E p numAnds 0
    ((t.layeredBucketIntoAcc E p B numAnds).feqCheck E p).reconcile E p numAnds

/-! ### A run -/

/-- The slot and mask pass, with `left` entries of `lg_buf` unused: it draws a batch when it has used
the last. -/
def slotMask : List Gate → ℕ → Script → Script
  | [], _, t => t
  | g :: gs, left, t =>
    if g.isAnd then
      if left = 0 then slotMask gs (kLgBatch - 1) (t.genCotShares E p kLgBatch)
      else slotMask gs (left - 1) t
    else slotMask gs left t

/-- `garbler_path_`: the garble pass with its sender job, then the garbler's half of the `c_gamma`
exchange. -/
def garblerPath (gs : List Gate) : Script :=
  let numAnds := countAnds gs
  let sender : List Act := [.pipe (.consumerSlot (.sendChunks t.call (sendIo .alice) 0))]
  let t := t.add ([.newPipe, .enqueue sender, .act (.pipe .producerSlot)] ++
    (garbleGates 0 gs).map .act ++ [.join])
  if 0 < numAnds then
    t.onIo [.recv ⟨t.call, .lambdaAnd, 0, 0, E.boolBytes numAnds⟩,
      .send ⟨t.call, .gammaDigest, 0, 0, E.digestSize⟩]
  else t

/-- `evaluator_path_`: the evaluate pass with its receiver job, then the evaluator's half of the
`c_gamma` exchange. -/
def evaluatorPath (gs : List Gate) : Script :=
  let numAnds := countAnds gs
  let receiver := recvChunks t.call (recvIo .bob) numAnds 0
  let t := t.add ([.newPipe, .enqueue receiver] ++ (evaluateStart gs).map .act ++ [.join])
  if 0 < numAnds then
    t.onIo [.send ⟨t.call, .lambdaAnd, 0, 0, E.boolBytes numAnds⟩,
      .recv ⟨t.call, .gammaDigest, 0, 0, E.digestSize⟩]
  else t

/-- `run_source` over the gates of a program. -/
def runSource (gs : List Gate) : Script :=
  let t := (slotMask E p gs 0 t).computeInplace E p (countAnds gs)
  let t := match p with
    | .alice => t.garblerPath E gs
    | .bob => t.evaluatorPath E gs
  t.maybeFlushCotCheck E p

/-! ### Inputs and outputs -/

/-- The message of a party in `process_inputs`, `own` of its wires its own; no bits are sent when it
owns none. -/
def inputMsgs (nTotal own : ℕ) : List Msg :=
  [⟨t.call, .inputShare, 0, 0, nTotal⟩, ⟨t.call, .inputDigest, 0, 0, E.digestSize⟩] ++
    if own = 0 then [] else [⟨t.call, .inputBits, 0, 0, own⟩]

/-- `process_inputs`, with the party's own `bits_per_owner`. -/
def processInputs (owners : List Owner) (bits : List (List UInt8)) : Except String Script := do
  checkInputRequest owners bits
  let nTotal := inputTotal bits
  if nTotal = 0 then return t
  let t := t.genCotShares E p nTotal
  let ownerOf := ownerOfWire owners bits
  let ownXPacked := ownXPacked p ownerOf (ownXBits p owners bits)
  let peerIdxList := ownerOf.filter fun o => !o.isParty p
  let t := t.duplex p ((t.inputMsgs E nTotal ownXPacked.length).map .send)
    ((t.inputMsgs E nTotal peerIdxList.length).map .recv)
  let labels : Msg := ⟨t.call, .inputLabels, 0, 0, nTotal * blockBytes⟩
  return match p with
    | .alice => t.onIo [.send labels]
    | .bob => t.onIo [.recv labels]

/-- `decode` of `n` wires to one party, or to none. -/
def decodeTo (n : ℕ) (isRecipient : Bool) : Script :=
  let share : Msg := ⟨t.call, .decodeShare, 0, 0, n⟩
  let digest : Msg := ⟨t.call, .decodeDigest, 0, 0, E.digestSize⟩
  if isRecipient then t.onIo [.recv share, .recv digest] else t.onIo [.send share, .send digest]

/-- `decode` of `n` wires. -/
def decode (n : ℕ) (recipient : Owner) : Script :=
  match recipient with
  | .PUBLIC =>
    let t := t.decodeTo E n (Owner.BOB.isParty p)
    let bits : Msg := ⟨t.call, .publicBits, 0, 0, n⟩
    match p with
    | .alice => t.onIo [.recv bits]
    | .bob => t.onIo [.send bits]
  | r => t.decodeTo E n (r.isParty p)

/-- `AG2PCSession::reveal`, of what it does itself: the check of the recipient, then `decode`. -/
def reveal (n : ℕ) (recipient : Owner) : Except String Script :=
  match recipient with
  | .other _ =>
    .error "AG2PCSession::reveal: recipient must be PUBLIC, ALICE, or BOB (XOR-share reveal is not supported)"
  | r => .ok (t.decode E p n r)

end Script

/-! ### Sessions -/

/-- A batch of inputs: both parties pass the same owners and vectors of the same widths, each with its
own bits. -/
structure InputBatch where
  /-- `owners`. -/
  owners : List Owner
  /-- `bits_per_owner` at each party. -/
  bits : Party → List (List UInt8)
  /-- The widths are the same. -/
  widths : (bits .alice).map List.length = (bits .bob).map List.length

/-- A batch in which both parties pass zeros. -/
def InputBatch.zeros (owners : List Owner) (widths : List ℕ) : InputBatch where
  owners := owners
  bits _ := widths.map fun n => List.replicate n 0
  widths := rfl

/-- A call both parties make. -/
inductive Call where
  /-- `process_inputs`. -/
  | processInputs (b : InputBatch)
  /-- A run of a program or a body with these gates. -/
  | runSource (gs : List Gate)
  /-- `reveal` of `n` wires. -/
  | reveal (n : ℕ) (recipient : Owner)

/-- A call at one party. -/
def Call.script (E : Env) (p : Party) (t : Script) : Call → Except String Script
  | .processInputs b => t.processInputs E p b.owners (b.bits p)
  | .runSource gs => .ok (t.runSource E p gs)
  | .reveal n recipient => t.reveal E p n recipient

/-- The calls in turn, up to the first that is refused; when none is, the session is torn down. -/
def session (E : Env) (p : Party) : List Call → Script → Script
  | [], t => t.parallelAbit E p .fin
  | c :: cs, t =>
    match c.script E p t with
    | .ok t' => session E p cs { t' with call := t'.call + 1 }
    | .error _ => t

/-- The main thread of a party that sets a session up and makes the calls. -/
def program (E : Env) (calls : List Call) (p : Party) : List Cmd :=
  (session E p calls (({} : Script).parallelAbit E p .begin)).code

end AG2PC.Messages
