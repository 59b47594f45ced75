import Cacheon.Lib.Fallible
import Cacheon.Lib.JsonText

/-!
# Submitting a bundle with an earlier payment

A miner pays for an evaluation on chain and points the commitment of a bundle at the payment.  A
commit that failed is tried again with the same payment, which is reopened first.

* `verifyEvalCostPayment` : what a validator checks of a payment at the reveal.
* `submitBundle` : the miner's side, with its own check of the payment.
* `reuse_spendable_iff` : when the reveal can spend a payment that was used again.
-/

namespace Cacheon

open Fallible JsonText

/-- What the evaluation-cost code raises. -/
inductive EvalCostFault where
  /-- `EvalCostError`. -/
  | cost (text : String)
  /-- `EvalCostFetchError`. -/
  | fetch (text : String)
  /-- `EvalCostCommitError`: the commit failed and left this payment unused. -/
  | commit (paymentBlock paymentExtrinsicIndex : ℕ) (cause : EvalCostFault)
deriving DecidableEq

open EvalCostFault

/-- The proposal an evaluation is paid for. -/
structure EvalCostRequest where
  netuid : ℕ
  hotkey : String
  contentHash : String
deriving DecidableEq

/-- The published fee. -/
structure EvalCostPolicy where
  amountRao : ℕ
  destination : String
  paymentWindowBlocks : ℕ
  quoteTtlBlocks : ℕ
deriving DecidableEq

/-- A fee frozen from the block of its issue to its expiry. -/
structure EvalCostQuote where
  netuid : ℕ
  amountRao : ℕ
  destination : String
  issuedBlock : ℕ
  expiresBlock : ℕ
deriving DecidableEq

/-- A transfer found on chain. -/
structure EvalCostPaymentProof where
  block : ℕ
  signer : String
  payer : String
  destination : String
  amountRao : ℕ
  remark : Text
deriving DecidableEq

variable (request : EvalCostRequest)

/-- The published fee, frozen from a block on. -/
def quoteEvalCost (policy : EvalCostPolicy) (atBlock : ℕ) : EvalCostQuote :=
  ⟨request.netuid, policy.amountRao, policy.destination, atBlock, atBlock + policy.quoteTtlBlocks⟩

/-- The payload of a remark. -/
structure RemarkPayload where
  amountRao : ℕ
  contentHash : Text
  destination : Text
  expiresBlock : ℕ
  hotkey : Text
  issuedBlock : ℕ
  netuid : ℕ

/-- The data of a remark, with the members in their canonical order. -/
def remarkTree (quote : EvalCostQuote) : JsonTree :=
  .obj [(ascii "domain", .str (ascii "cacheon.chain.eval-cost-payment.v1")),
    (ascii "payload", .obj [(ascii "amount_rao", .int quote.amountRao),
      (ascii "content_hash", .str (ascii request.contentHash)),
      (ascii "destination", .str (ascii quote.destination)),
      (ascii "expires_block", .int quote.expiresBlock),
      (ascii "hotkey", .str (ascii request.hotkey)),
      (ascii "issued_block", .int quote.issuedBlock), (ascii "netuid", .int request.netuid)]),
    (ascii "schema_version", .int 1)]

/-- The remark that binds a transfer to a quote. -/
def encodePaymentRemark (quote : EvalCostQuote) : Except EvalCostFault Text := do
  check (request.contentHash ≠ "") (cost "payment remark requires a content hash")
  check (quote.destination ≠ "") (cost "payment remark requires a destination wallet")
  check (0 < quote.amountRao) (cost "payment remark requires a positive amount")
  check (quote.netuid = request.netuid) (cost "payment remark quote netuid differs")
  return (remarkTree request quote).render

/-- Read a remark back.  Members in another order, or twice, and other spellings of the same data
are not canonical.  Where Python raises, on a float or a lone surrogate, there is no payload. -/
def decodePaymentRemark (text : Text) : Option RemarkPayload := do
  guard (text ≠ [] ∧ (utf8 text).any (·.length ≤ 4096))
  let (tree, []) ← JsonTree.read text.length text | none
  let .obj [(d, .str domain), (p, .obj [(a, .int amount), (c, .str contentHash),
    (w, .str destination), (x, .int expires), (k, .str hotkey), (b, .int issued),
    (n, .int netuid)]), (v, version)] := tree | none
  guard ([d, p, v] = ["domain", "payload", "schema_version"].map ascii ∧
    domain = ascii "cacheon.chain.eval-cost-payment.v1")
  -- In Python `True == 1`.
  guard (version matches .int 1 | .bool true)
  guard ([a, c, w, x, k, b, n] = ["amount_rao", "content_hash", "destination", "expires_block",
    "hotkey", "issued_block", "netuid"].map ascii)
  guard (tree.render = text)
  guard (0 ≤ issued ∧ issued < expires ∧ 0 ≤ amount ∧ 0 ≤ netuid ∧ destination ≠ [])
  return ⟨amount.toNat, contentHash, destination, expires.toNat, hotkey, issued.toNat, netuid.toNat⟩

/-- What a validator checks of a payment at the reveal; an empty reason accepts it. -/
def verifyEvalCostPayment (policy : EvalCostPolicy)
    (proof : Option EvalCostPaymentProof) (revealBlock : ℕ) : Except EvalCostFault String :=
  match proof with
  | none => .ok "missing_eval_cost_payment"
  | some proof => do
    check (policy.destination ≠ "") (cost "eval-cost destination is required")
    match decodePaymentRemark proof.remark with
    | none => .ok "eval_cost_payment_invalid"
    | some parsed => do
      let quote := quoteEvalCost request policy parsed.issuedBlock
      let expected := { quote with amountRao := max quote.amountRao parsed.amountRao }
      let remark ← encodePaymentRemark request expected
      .ok (if proof.remark ≠ remark then "eval_cost_payment_invalid"
        else if proof.block < expected.issuedBlock ∨ expected.expiresBlock < proof.block then
          "eval_cost_quote_expired"
        else if revealBlock < proof.block ∨
          policy.paymentWindowBlocks < revealBlock - proof.block then "eval_cost_payment_window"
        else if proof.signer ≠ proof.payer ∨ proof.destination ≠ expected.destination ∨
          proof.amountRao < expected.amountRao then "eval_cost_payment_invalid"
        else "")

/-- The chain during one submission. -/
structure SubmitChain where
  /-- The block when the client asks. -/
  currentBlock : ℕ
  /-- The block that takes the commitment. -/
  commitBlock : ℕ
  current_le_commit : currentBlock ≤ commitBlock
  readSubnetOwnerColdkey : ℕ → ℕ → Except EvalCostFault String
  readEvalCostPayment : ℕ → ℕ → Except EvalCostFault (Option EvalCostPaymentProof)
  block_eq : ∀ block index proof,
    readEvalCostPayment block index = .ok (some proof) → proof.block = block
  payEvalCostTao : EvalCostRequest → EvalCostQuote → Except EvalCostFault (ℕ × ℕ)
  /-- Post the commitment to a hash, a URL and a payment: was it submitted, and a message. -/
  postRevealCommitment : String → String → ℕ × ℕ → ℕ → Except EvalCostFault (Bool × String)

variable (chain : SubmitChain) (request : EvalCostRequest)

/-- Fetch a payment and refuse one for another proposal. -/
def bindEvalCostPayment (pointer : ℕ × ℕ) : Except EvalCostFault EvalCostPaymentProof := do
  let found ← chain.readEvalCostPayment pointer.1 pointer.2
  let proof ← get (cost "eval-cost payment pointer is not a matching transfer") found
  check ((decodePaymentRemark proof.remark).any fun parsed =>
      parsed.contentHash = ascii request.contentHash ∧ parsed.hotkey = ascii request.hotkey ∧
        parsed.netuid = request.netuid)
    (cost "eval-cost payment is bound to a different proposal")
  return proof

/-- Reopen a payment and refuse it if the reveal could not spend it. -/
def reopenUnusedEvalCostPayment (policy : EvalCostPolicy)
    (pointer : ℕ × ℕ) (revealBlock : ℕ) : Except EvalCostFault EvalCostPaymentProof := do
  let proof ← bindEvalCostPayment chain request pointer
  let owner ← chain.readSubnetOwnerColdkey request.netuid proof.block
  let reason ← verifyEvalCostPayment request { policy with destination := owner } (some proof)
    revealBlock
  check (reason = "") (cost ("eval-cost payment cannot be reused (" ++ reason ++ ")"))
  return proof

/-- Pay or use a payment again, and commit the bundle. -/
def submitBundle (url : String) (blocksUntilReveal : ℕ) (pay : Bool)
    (policy : EvalCostPolicy) (pointer : ℕ × ℕ) : Except EvalCostFault Unit := do
  check (pay = false ∨ pointer.1 = 0) (cost "cannot pay and reuse an eval-cost payment together")
  check (pointer.2 = 0 ∨ 0 < pointer.1) (cost "eval-cost payment pointer requires a block")
  check (pay = false ∧ pointer.1 = 0 ∨ request.hotkey ≠ "")
    (cost "eval-cost payment requires a miner hotkey")
  let resolved ← if pay then do
      let owner ← chain.readSubnetOwnerColdkey request.netuid chain.currentBlock
      chain.payEvalCostTao request
        (quoteEvalCost request { policy with destination := owner } chain.currentBlock)
    else if 0 < pointer.1 then do
      let _ ← reopenUnusedEvalCostPayment chain request policy pointer chain.currentBlock
      .ok pointer
    else .ok pointer
  let posted := do
    let result ← chain.postRevealCommitment request.contentHash url resolved blocksUntilReveal
    check (resolved.1 = 0 ∨ result.1) (cost
      (if result.2 = "" then "reveal commitment was not submitted" else result.2))
  posted.mapError fun cause => if 0 < resolved.1 then commit resolved.1 resolved.2 cause else cause

variable {chain request} {request' : EvalCostRequest} {policy policy' : EvalCostPolicy}
  {proof : EvalCostPaymentProof} {reveal reveal' : ℕ}

/-- Only the payment window looks at the block of the reveal. -/
theorem verify_iff : verifyEvalCostPayment request policy (some proof) reveal = .ok "" ↔
    verifyEvalCostPayment request policy (some proof) proof.block = .ok "" ∧
      proof.block ≤ reveal ∧ reveal ≤ proof.block + policy.paymentWindowBlocks := by
  simp only [verifyEvalCostPayment, bind_ok, exists_check, and_assoc]
  refine and_congr_right fun _ => ?_
  cases decodePaymentRemark proof.remark with
  | none => simp
  | some parsed =>
    simp only [bind_ok, Except.ok.injEq, ← exists_and_right, and_assoc]
    refine exists_congr fun remark => and_congr_right fun _ => ?_
    split_ifs <;> simp <;> omega

/-- **The reveal can spend a payment that was used again if and only if it comes inside the
window.**  The miner's check reads the block before the commitment, not that of the reveal. -/
theorem reuse_spendable_iff {url : String} {blocksUntilReveal : ℕ} {pointer : ℕ × ℕ}
    (hreuse : 0 < pointer.1)
    (h : submitBundle chain request url blocksUntilReveal false policy pointer = .ok ()) :
    ∃ proof owner, chain.readEvalCostPayment pointer.1 pointer.2 = .ok (some proof) ∧
      chain.readSubnetOwnerColdkey request.netuid pointer.1 = .ok owner ∧
      (verifyEvalCostPayment request { policy with destination := owner } (some proof)
          (chain.commitBlock + blocksUntilReveal) = .ok "" ↔
        chain.commitBlock + blocksUntilReveal ≤ pointer.1 + policy.paymentWindowBlocks) := by
  simp only [submitBundle, reopenUnusedEvalCostPayment, bindEvalCostPayment, bind_ok, get_ok,
    exists_check, hreuse, if_true, Bool.false_eq_true, if_false] at h
  obtain ⟨-, -, -, _, ⟨proof, ⟨_, hread, _, rfl, -, hproof⟩, owner, howner, _, hreason, rfl, -⟩,
    -⟩ := h
  cases hproof
  have hblock := chain.block_eq _ _ _ hread
  obtain ⟨hpayable, hcurrent, -⟩ := verify_iff.1 hreason
  have hlate := chain.current_le_commit
  refine ⟨proof, owner, hread, hblock ▸ howner, ?_⟩
  rw [verify_iff, ← hblock]
  exact ⟨fun hspend => hspend.2.2, fun hwindow => ⟨hpayable, by omega, hwindow⟩⟩

/-- The remark of an accepted payment names the proposal and the owner, and the fee is paid. -/
theorem remark_of_verify (h : verifyEvalCostPayment request policy (some proof) reveal = .ok "") :
    ∃ quote, proof.remark = (remarkTree request quote).render ∧
      quote.destination = policy.destination ∧
      policy.amountRao ≤ proof.amountRao := by
  simp only [verifyEvalCostPayment, bind_ok, exists_check] at h
  obtain ⟨-, h⟩ := h
  cases hparsed : decodePaymentRemark proof.remark with
  | none => simp [hparsed] at h
  | some parsed =>
    simp only [hparsed, encodePaymentRemark, bind_ok, exists_check] at h
    obtain ⟨_, ⟨-, -, -, -, hremark⟩, h⟩ := h
    cases hremark
    split_ifs at h with hother _ _ hpaid <;> simp at h
    simp only [not_or, not_not, Nat.not_lt] at hother hpaid
    exact ⟨_, hother, rfl, Nat.le_trans (Nat.le_max_left _ _) hpaid.2.2⟩

/-- **A payment is good for one proposal and one owner**, and covers every fee it is taken for. -/
theorem payment_binds (h : verifyEvalCostPayment request policy (some proof) reveal = .ok "")
    (h' : verifyEvalCostPayment request' policy' (some proof) reveal' = .ok "") :
    request' = request ∧ policy'.destination = policy.destination ∧
      max policy.amountRao policy'.amountRao ≤ proof.amountRao := by
  obtain ⟨quote, hremark, hdest, hpaid⟩ := remark_of_verify h
  obtain ⟨quote', hremark', hdest', hpaid'⟩ := remark_of_verify h'
  have htree := JsonTree.render_injective (hremark.symm.trans hremark')
  simp only [remarkTree, JsonTree.obj.injEq, List.cons.injEq, Prod.mk.injEq, JsonTree.str.injEq,
    JsonTree.int.injEq, ascii_inj, Int.natCast_inj, and_true, true_and] at htree
  obtain ⟨-, hhash, hwallet, -, hhotkey, -, hnetuid⟩ := htree
  refine ⟨?_, hdest'.symm.trans (hwallet.symm.trans hdest), Nat.max_le.2 ⟨hpaid, hpaid'⟩⟩
  cases request
  cases request'
  exact EvalCostRequest.mk.injEq .. ▸ ⟨hnetuid.symm, hhotkey.symm, hhash.symm⟩

namespace SubmitSample

def proposal : EvalCostRequest := ⟨1, "miner", "bundle"⟩

def published : EvalCostPolicy := ⟨500000000, "", 7200, 300⟩

def payment (block : ℕ) : EvalCostPaymentProof :=
  ⟨block, "payer", "payer", "owner", 500000000, (remarkTree proposal
      (quoteEvalCost proposal { published with destination := "owner" } 1)).render⟩

/-- A chain at a block, with a payment wherever one is looked for. -/
def chainAt (block : ℕ) : SubmitChain where
  currentBlock := block
  commitBlock := block
  current_le_commit := Nat.le_refl _
  readSubnetOwnerColdkey := fun _ _ => .ok "owner"
  readEvalCostPayment := fun block _ => .ok (some (payment block))
  block_eq := fun | _, _, _, rfl => rfl
  payEvalCostTao := fun _ _ => .error (fetch "no wallet")
  postRevealCommitment := fun _ _ _ _ => .ok (true, "")

set_option maxRecDepth 4000

/-- A payment near the end of its window is taken for a reveal that comes too late for it. -/
theorem reuse_outside_window :
    submitBundle (chainAt 7200) proposal "url" 10 false published (1, 0) = .ok () ∧
      verifyEvalCostPayment proposal { published with destination := "owner" } (some (payment 1))
        (7200 + 10) = .ok "eval_cost_payment_window" := by
  decide

theorem reuse_spendable_sample :
    ∃ proof owner, (chainAt 1).readEvalCostPayment 1 0 = .ok (some proof) ∧
      (chainAt 1).readSubnetOwnerColdkey 1 1 = .ok owner ∧
      (verifyEvalCostPayment proposal { published with destination := owner } (some proof)
        (1 + 10) = .ok "" ↔ 1 + 10 ≤ 1 + 7200) :=
  reuse_spendable_iff (by decide)
    (show submitBundle (chainAt 1) proposal "url" 10 false published (1, 0) = .ok () by decide)

/-- One payment under two fees and at two reveals; another miner cannot use it. -/
theorem payment_binds_sample :
    (proposal = proposal ∧ "owner" = "owner" ∧ max 500000000 400000000 ≤ 500000000) ∧
      verifyEvalCostPayment { proposal with hotkey := "rival" } ⟨1, "owner", 9, 300⟩
        (some (payment 1)) 5 = .ok "eval_cost_payment_invalid" :=
  ⟨payment_binds
    (show verifyEvalCostPayment proposal ⟨500000000, "owner", 9, 300⟩ (some (payment 1)) 5 = .ok ""
      by decide)
    (show verifyEvalCostPayment proposal ⟨400000000, "owner", 7200, 300⟩ (some (payment 1)) 7000 =
      .ok "" by decide), by decide⟩

end SubmitSample

end Cacheon
