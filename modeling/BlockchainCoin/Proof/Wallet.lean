import BlockchainCoin.Proof.Lives
import BlockchainCoin.Proof.Pending
import BlockchainCoin.Proof.Signing

/-!
# Spending from a wallet

`create_transaction` takes outputs of the wallet until they are worth the amount and
the fee (`Selected`), pays what is over back, and signs one input after the other. No
signature changes the message of another (`signAll_eq`), and so the transaction passes
`validate_transaction` with the fee that was asked for (`createTransaction_exact`).
-/

namespace BCC.Proof

open BCC.Impl BCC.Ledger PyError ConsensusNode

/-! ## Selecting outputs -/

/-- What outputs are worth together. -/
def amountOf (utxos : List (OutPoint × TxOutput)) : Int := (utxos.map fun utxo => utxo.2.amount).sum

theorem amountOf_cons (utxo : OutPoint × TxOutput) (utxos : List (OutPoint × TxOutput)) :
    amountOf (utxo :: utxos) = utxo.2.amount + amountOf utxos := List.sum_cons

theorem amountOf_le {selected utxos : List (OutPoint × TxOutput)} (h : selected.Sublist utxos)
    (hpos : ∀ utxo ∈ utxos, 0 < utxo.2.amount) : amountOf selected ≤ amountOf utxos :=
  (h.map _).sum_le_sum (List.forall_mem_map.mpr fun utxo hutxo => (hpos utxo hutxo).le)

/-- The outputs up to the first one with which they are worth `needed`, or all of them. -/
structure Selected (needed : Int) (utxos selected : List (OutPoint × TxOutput)) : Prop where
  first : selected <+: utxos
  enough : selected = utxos ∨ needed ≤ amountOf selected
  tight : 0 < needed → amountOf selected.dropLast < needed

theorem Selected.cons {needed : Int} {utxo : OutPoint × TxOutput} {utxos selected : List (OutPoint × TxOutput)}
    (h : Selected (needed - utxo.2.amount) utxos selected) (hless : utxo.2.amount < needed) :
    Selected needed (utxo :: utxos) (utxo :: selected) := by
  refine ⟨List.cons_prefix_cons.mpr ⟨rfl, h.first⟩, ?_, fun hneeded => ?_⟩
  · rcases h.enough with hall | hle
    · exact .inl (congrArg _ hall)
    · rw [amountOf_cons]
      exact .inr (by omega)
  · have htight := h.tight (by omega)
    cases selected with
    | nil => exact hneeded
    | cons utxo' selected =>
      rw [List.dropLast_cons_cons, amountOf_cons]
      omega

/-- What the loop adds to the outputs that are selected already. -/
theorem selectOutputs_selected (needed total : Int) (before utxos : List (OutPoint × TxOutput)) :
    ∃ selected, selectOutputs needed before total utxos = (before ++ selected, total + amountOf selected) ∧
      Selected (needed - total) utxos selected := by
  induction utxos generalizing before total with
  | nil => exact ⟨[], by simp [selectOutputs, amountOf], List.prefix_rfl, .inl rfl, id⟩
  | cons utxo utxos ih =>
    rw [selectOutputs]
    split
    · rename_i hle
      refine ⟨[utxo], by simp [amountOf], ⟨List.cons_prefix_cons.mpr ⟨rfl, List.nil_prefix⟩, .inr ?_, id⟩⟩
      simp only [amountOf, List.map_cons, List.map_nil, List.sum_cons, List.sum_nil]
      omega
    · rename_i hless
      obtain ⟨selected, hselect, hsel⟩ := ih (total + utxo.2.amount) (before ++ [utxo])
      refine ⟨utxo :: selected, ?_, Selected.cons ?_ (by omega)⟩
      · rw [hselect, amountOf_cons, List.append_assoc, List.singleton_append, Int.add_assoc]
      · rwa [Int.sub_sub]

theorem Selected.amount_lt_iff {needed : Int} {utxos selected : List (OutPoint × TxOutput)}
    (h : Selected needed utxos selected) (hpos : ∀ utxo ∈ utxos, 0 < utxo.2.amount) :
    amountOf selected < needed ↔ amountOf utxos < needed := by
  have hle := amountOf_le h.first.sublist hpos
  refine ⟨fun hless => ?_, fun hless => by omega⟩
  rcases h.enough with rfl | henough
  · exact hless
  · omega

/-! ## The outputs of a wallet -/

/-- What the outputs of an address are worth in a UTXO set. -/
def owned (u : UTXOSet) (address : Str) : Int :=
  ((u.entries.filter fun e => e.2.address = address).map fun e => e.2.amount).sum

theorem amountOf_entriesForAddress (u : UTXOSet) (address : Str) :
    amountOf (u.entriesForAddress address) = owned u address := by
  have hperm := ((List.perm_insertionSort UTXOSet.entryLe (u.entries.map fun e => (e.1, e.2))).filter
    fun entry => decide (entry.2.address = address)).map fun utxo => utxo.2.amount
  rw [amountOf, UTXOSet.entriesForAddress, UTXOSet.sortedEntries, hperm.sum_eq, List.filter_map, List.map_map]
  rfl

theorem mem_entriesForAddress {u : UTXOSet} {address : Str} {utxo : OutPoint × TxOutput} :
    utxo ∈ u.entriesForAddress address ↔ u.lookup utxo.1 = some utxo.2 ∧ utxo.2.address = address := by
  rw [UTXOSet.entriesForAddress, List.mem_filter, decide_eq_true_iff, UTXOSet.sortedEntries, List.mem_insertionSort]
  refine and_congr_left fun _ => ?_
  rw [List.mem_map]
  refine ⟨fun ⟨e, he, heq⟩ => ?_, fun h => ⟨⟨utxo.1, utxo.2⟩, AList.mem_lookup_iff.mp h, rfl⟩⟩
  subst heq
  exact AList.mem_lookup_iff.mpr he

theorem nodup_entriesForAddress (u : UTXOSet) (address : Str) : ((u.entriesForAddress address).map Prod.fst).Nodup := by
  have hperm := (List.perm_insertionSort UTXOSet.entryLe (u.entries.map fun e => (e.1, e.2))).map Prod.fst
  have hkeys : ((u.entries.map fun e => (e.1, e.2)).map Prod.fst).Nodup := by
    rw [List.map_map]
    exact u.nodupKeys
  exact (hperm.nodup_iff.mpr hkeys).sublist (List.filter_sublist.map _)

theorem owned_le_total {u : UTXOSet} {maxMoney : Int} (h : Valued maxMoney u) (address : Str) :
    owned u address ≤ u.total := by
  refine (List.filter_sublist.map _).sum_le_sum (List.forall_mem_map.mpr fun e he => ?_)
  exact (h e.1 e.2 (AList.mem_lookup_iff.mpr he)).1.le

/-- The address of a public key is valid, whatever the key. -/
theorem isValidAddress_address (wallet : Wallet) : isValidAddress wallet.address = true := by
  have hlen : ((sha256HexText wallet.publicKey.key).take 40).length = 40 := by
    rw [List.length_take, sha256HexText, length_sha256Hex]
    rfl
  rw [isValidAddress, Wallet.address, PublicKey.address, List.drop_left, Bool.and_eq_true, List.isPrefixOf_iff_prefix]
  refine ⟨List.prefix_append _ _, ?_⟩
  simp only [Bool.and_eq_true, beq_iff_eq, List.all_eq_true, List.contains_iff_mem]
  exact ⟨hlen, fun c hc => mem_hexEncode (List.mem_of_mem_take hc)⟩

/-! ## Signing every input -/

/-- An input with the wallet's signature of its message. -/
def signedInput (wallet : Wallet) (t : ConsensusTransaction) (index : Nat) (x : TxInput) : TxInput :=
  ⟨x.previousOutput, some (wallet.sign (t.signingMessage index)), some wallet.publicKey.toDict⟩

/-- The transaction once its first inputs are signed. -/
def signedUpTo (wallet : Wallet) (t : ConsensusTransaction) (count : Nat) : ConsensusTransaction :=
  { t with inputs := t.inputs.mapIdx fun index x => if index < count then signedInput wallet t index x else x }

theorem previousOutputs_mapIdx {f : Nat → TxInput → TxInput} (hf : ∀ i x, (f i x).previousOutput = x.previousOutput)
    (inputs : List TxInput) : (inputs.mapIdx f).map (·.previousOutput) = inputs.map (·.previousOutput) :=
  List.ext_getElem (by simp) fun i _ _ => by simp only [List.getElem_mapIdx, List.getElem_map, hf]

/-- No message depends on a witness. -/
theorem signingMessage_congr {t : ConsensusTransaction} {inputs : List TxInput}
    (h : inputs.map (·.previousOutput) = t.inputs.map (·.previousOutput)) (index : Nat) :
    ({ t with inputs := inputs } : ConsensusTransaction).signingMessage index = t.signingMessage index := by
  rw [signingMessage_eq, signingMessage_eq, told, told, h]

theorem signingMessage_signedUpTo (wallet : Wallet) (t : ConsensusTransaction) (count index : Nat) :
    (signedUpTo wallet t count).signingMessage index = t.signingMessage index :=
  signingMessage_congr (previousOutputs_mapIdx (fun i x => by split <;> rfl) _) index

theorem signInput_signedUpTo {wallet : Wallet} {t : ConsensusTransaction} {count : Nat} (h : count < t.inputs.length) :
    (signedUpTo wallet t count).signInput count wallet = .ok (signedUpTo wallet t (count + 1)) := by
  have hlen : (signedUpTo wallet t count).inputs.length = t.inputs.length := List.length_mapIdx
  rw [ConsensusTransaction.signInput, raiseIf_of_not (by omega), ok_bind]
  dsimp only
  rw [Int.toNat_natCast, signingMessage_signedUpTo]
  refine congrArg (fun inputs => Except.ok { t with inputs := inputs }) (List.ext_getElem? fun i => ?_)
  rw [List.getElem?_mapIdx]
  by_cases hi : count = i
  · subst hi
    rw [List.getElem?_modify_eq, signedUpTo, List.getElem?_mapIdx]
    cases t.inputs[count]? with
    | none => rfl
    | some x =>
      simp only [Option.map_some, Nat.lt_irrefl, if_false, Nat.lt_succ_self, if_true]
      rfl
  · rw [List.getElem?_modify_ne _ _ hi, signedUpTo, List.getElem?_mapIdx]
    have hiff : i < count + 1 ↔ i < count := by omega
    simp only [hiff]

theorem signRange (wallet : Wallet) (t : ConsensusTransaction) : ∀ count ≤ t.inputs.length,
    (List.range count).foldlM (fun t (index : Nat) => t.signInput index wallet) t = .ok (signedUpTo wallet t count)
  | 0, _ => by
    have hinputs : t.inputs.mapIdx (fun _ x => x) = t.inputs :=
      List.ext_getElem (by simp) fun i _ _ => by rw [List.getElem_mapIdx]
    have hsame : signedUpTo wallet t 0 = t := by
      simp only [signedUpTo, Nat.not_lt_zero, if_false, hinputs]
    rw [hsame]
    rfl
  | count + 1, h => by
    rw [List.range_succ, List.foldlM_append, signRange wallet t count (by omega), ok_bind, List.foldlM_cons,
      signInput_signedUpTo h]
    rfl

/-- Every input ends with the signature of the message of the unsigned transaction, which is that of the signed one. -/
theorem signAll_eq (wallet : Wallet) (t : ConsensusTransaction) :
    signAll wallet t = .ok { t with inputs := t.inputs.mapIdx (signedInput wallet t) } := by
  have hinputs : (signedUpTo wallet t t.inputs.length).inputs = t.inputs.mapIdx (signedInput wallet t) := by
    refine List.ext_getElem (by simp [signedUpTo]) fun i hi _ => ?_
    rw [signedUpTo, List.length_mapIdx] at hi
    simp only [signedUpTo, List.getElem_mapIdx, hi, if_true]
  rw [signAll, signRange wallet t _ le_rfl, ← hinputs]
  rfl

/-! ## Exact spends -/

/-- `t` pays `amount` to the recipient and `fee`, from different outputs of the wallet, of which it takes no more than
it needs. -/
structure ExactSpend [Ed25519] (n : ConsensusNode) (wallet : Wallet) (recipient : Str) (amount fee : Int)
    (selected : List (OutPoint × TxOutput)) (t : ConsensusTransaction) : Prop where
  accepted : n.state.validateTransaction t = .ok fee
  inputs : t.inputs.map (·.previousOutput) = selected.map Prod.fst
  distinct : (selected.map Prod.fst).Nodup
  owned : ∀ utxo ∈ selected, n.state.utxos.lookup utxo.1 = some utxo.2 ∧ utxo.2.address = wallet.address
  enough : amount + fee ≤ amountOf selected
  tight : amountOf selected.dropLast < amount + fee
  outputs : t.outputs = ⟨amount, recipient⟩ ::
    if amount + fee < amountOf selected then [⟨amountOf selected - (amount + fee), wallet.address⟩] else []

variable [Ed25519]

/-- Outpoints are numbered from 0. -/
theorem Built.index_nonneg {subsidy maxMoney : Int} {bs : List ConsensusBlock} {q : Str} {s : ConsensusState}
    (h : Built subsidy maxMoney bs q s) {o : OutPoint} {out : TxOutput} (ho : s.utxos.lookup o = some out) : 0 ≤ o.index := by
  obtain ⟨s₀, fs, hinit, hr⟩ := rebuildStateFromBlocks_eq_ok.mp (built_iff.mpr ⟨q, h⟩)
  rcases hr.run.gained ho with h₀ | ⟨t, -, _, -, hmem⟩
  · rw [(init_eq_ok hinit).1, AList.lookup_empty] at h₀
    cases h₀
  · obtain ⟨i, rfl, -⟩ := mem_createdFrom.mp hmem
    exact Int.natCast_nonneg _

theorem NodeOk.index_nonneg {n : ConsensusNode} (h : NodeOk n) {o : OutPoint} {out : TxOutput}
    (ho : n.state.utxos.lookup o = some out) : 0 ≤ o.index := by
  obtain ⟨a, -, hs, q, hb⟩ := h.built
  rw [hs.lookup] at ho
  exact hb.index_nonneg ho

/-- The wallet's signatures are not empty, and its public key verifies them. -/
def Signs (wallet : Wallet) : Prop :=
  ∀ message, wallet.sign message ≠ [] ∧ verifySignature wallet.publicKey message (wallet.sign message) = true

theorem Signs.validateInputSignature {wallet : Wallet} (h : Signs wallet) {t : ConsensusTransaction} {index : Nat}
    {x : TxInput} {out : TxOutput} (hx : x.signature = some (wallet.sign (t.signingMessage index)))
    (hkey : x.publicKey = some wallet.publicKey.toDict) (hout : out.address = wallet.address) :
    validateInputSignature t index x out = .ok () := by
  obtain ⟨hne, hverify⟩ := h (t.signingMessage index)
  have hempty : ¬ (wallet.publicKey.toDict.isEmpty = true ∨ wallet.sign (t.signingMessage index) = []) := by
    rintro (hempty | hempty)
    · cases hempty
    · exact hne hempty
  have hown : ¬ wallet.publicKey.address ≠ out.address := not_not.mpr hout.symm
  rw [BCC.Impl.validateInputSignature, hx, hkey]
  dsimp only
  rw [raiseIf_of_not hempty]
  show (raiseIf (wallet.publicKey.address ≠ out.address) _ >>= fun _ => _) = _
  rw [raiseIf_of_not hown, ok_bind, raiseIf_of_not (not_not.mpr hverify)]

/-- What `create_transaction` signs, for the outputs it selects. -/
def unsignedSpend (wallet : Wallet) (recipient : Str) (amount fee : Int) (selected : List (OutPoint × TxOutput)) :
    ConsensusTransaction where
  inputs := selected.map fun utxo => { previousOutput := utxo.1 }
  outputs := ⟨amount, recipient⟩ :: if amountOf selected - (amount + fee) = 0 then []
    else [⟨amountOf selected - (amount + fee), wallet.address⟩]

omit [Ed25519] in
/-- What `create_transaction` does with a valid request: the outputs it selects decide. -/
theorem createTransaction_eq (n : ConsensusNode) (wallet : Wallet) {recipient : Str} {amount fee : Int}
    (hrecipient : isValidAddress recipient = true) (hamount : 0 < amount) (hfee : 0 ≤ fee) :
    ∃ selected, Selected (amount + fee) (n.spendableOutputs wallet.address) selected ∧
      n.createTransaction wallet recipient amount fee =
        if amountOf selected < amount + fee then .error (consensusNodeError "insufficient funds")
        else signAll wallet (unsignedSpend wallet recipient amount fee selected) := by
  obtain ⟨selected, hselect, hsel⟩ := selectOutputs_selected (amount + fee) 0 [] (n.spendableOutputs wallet.address)
  rw [List.nil_append, Int.zero_add] at hselect
  rw [Int.sub_zero] at hsel
  refine ⟨selected, hsel, ?_⟩
  rw [createTransaction, raiseIf_of_not (by omega), ok_bind, raiseIf_of_not (by omega), ok_bind,
    raiseIf_of_not (by rw [hrecipient]; exact Bool.noConfusion), ok_bind]
  dsimp only
  rw [hselect]
  dsimp only
  by_cases hless : amountOf selected < amount + fee
  · rw [raiseIf_of hless, if_pos hless, error_bind]
  · rw [raiseIf_of_not hless, if_neg hless, ok_bind]
    rfl

omit [Ed25519] in
theorem outputTotal_unsignedSpend (wallet : Wallet) (recipient : Str) (amount fee : Int)
    (selected : List (OutPoint × TxOutput)) :
    outputTotal (unsignedSpend wallet recipient amount fee selected).outputs = amountOf selected - fee := by
  rw [unsignedSpend, outputTotal]
  split
  · rename_i hchange
    simp only [List.map_cons, List.map_nil, List.sum_cons, List.sum_nil]
    omega
  · simp only [List.map_cons, List.map_nil, List.sum_cons, List.sum_nil]
    omega

/-- What `create_transaction` returns. -/
def signedSpend (wallet : Wallet) (recipient : Str) (amount fee : Int) (selected : List (OutPoint × TxOutput)) :
    ConsensusTransaction :=
  let unsigned := unsignedSpend wallet recipient amount fee selected
  { unsigned with inputs := unsigned.inputs.mapIdx (signedInput wallet unsigned) }

section

variable {wallet : Wallet} {recipient : Str} {amount fee : Int} {selected : List (OutPoint × TxOutput)}

omit [Ed25519] in
theorem previousOutputs_signedSpend :
    (signedSpend wallet recipient amount fee selected).inputs.map (·.previousOutput) = selected.map Prod.fst := by
  have hunsigned := previousOutputs_mapIdx (f := signedInput wallet (unsignedSpend wallet recipient amount fee selected))
    (fun _ _ => rfl) (unsignedSpend wallet recipient amount fee selected).inputs
  refine hunsigned.trans ?_
  rw [unsignedSpend, List.map_map]
  rfl

omit [Ed25519] in
/-- Every input names a selected output and has the signature of its message. -/
theorem getElem?_signedSpend {j : Nat} {x : TxInput}
    (h : (signedSpend wallet recipient amount fee selected).inputs[j]? = some x) : ∃ utxo ∈ selected,
      x = ⟨utxo.1, some (wallet.sign ((signedSpend wallet recipient amount fee selected).signingMessage j)),
        some wallet.publicKey.toDict⟩ := by
  have hmessage := signingMessage_congr (t := unsignedSpend wallet recipient amount fee selected)
    (previousOutputs_mapIdx (f := signedInput wallet (unsignedSpend wallet recipient amount fee selected)) (fun _ _ => rfl) _) j
  rw [signedSpend, hmessage]
  simp only [signedSpend, unsignedSpend, List.getElem?_mapIdx, List.getElem?_map, Option.map_map,
    Option.map_eq_some_iff] at h
  obtain ⟨utxo, hutxo, rfl⟩ := h
  exact ⟨utxo, List.mem_of_getElem? hutxo, rfl⟩

omit [Ed25519] in
theorem isCoinbase_of_index_nonneg {t : ConsensusTransaction} (h : ∀ x ∈ t.inputs, 0 ≤ x.previousOutput.index) :
    t.isCoinbase = false := by
  unfold ConsensusTransaction.isCoinbase
  split
  · rename_i x hx
    have hindex := h x (by rw [hx]; exact List.mem_singleton_self x)
    rw [decide_eq_false (not_lt.mpr hindex), Bool.and_false]
  · rfl

/-- The signed transaction is accepted, and its fee is the one that was asked for. -/
theorem NodeOk.exactSpend {n : ConsensusNode} (h : NodeOk n) (hw : Signs wallet)
    (hrecipient : isValidAddress recipient = true) (hamount : 0 < amount) (hfee : 0 ≤ fee)
    (hsel : Selected (amount + fee) (n.spendableOutputs wallet.address) selected)
    (henough : amount + fee ≤ amountOf selected) :
    ExactSpend n wallet recipient amount fee selected (signedSpend wallet recipient amount fee selected) := by
  have hmem : ∀ utxo ∈ selected, n.state.utxos.lookup utxo.1 = some utxo.2 ∧ utxo.2.address = wallet.address :=
    fun utxo hutxo => mem_entriesForAddress.mp (hsel.first.subset hutxo)
  have hdistinct : (selected.map Prod.fst).Nodup :=
    (nodup_entriesForAddress n.state.utxos wallet.address).sublist (hsel.first.sublist.map _)
  have hworth : amountOf selected ≤ n.state.maxMoney := by
    have hle := amountOf_le hsel.first.sublist fun utxo hutxo => (h.valued _ _ (mem_entriesForAddress.mp hutxo).1).1
    rw [spendableOutputs, amountOf_entriesForAddress] at hle
    exact hle.trans ((owned_le_total h.valued _).trans h.total.2)
  have hcoinbase : (signedSpend wallet recipient amount fee selected).isCoinbase = false := by
    refine isCoinbase_of_index_nonneg fun x hx => ?_
    obtain ⟨j, hj⟩ := List.mem_iff_getElem?.mp hx
    obtain ⟨utxo, hutxo, rfl⟩ := getElem?_signedSpend hj
    exact h.index_nonneg (hmem utxo hutxo).1
  have hinputs : inputTotal n.state.utxos (signedSpend wallet recipient amount fee selected) = amountOf selected := by
    rw [inputTotal, spentBy_of_not_coinbase hcoinbase, previousOutputs_signedSpend, List.map_map]
    refine congrArg List.sum (List.map_congr_left fun utxo hutxo => ?_)
    rw [Function.comp_apply, weightAt, (hmem utxo hutxo).1]
    rfl
  have houtputs : n.state.validateOutputs (signedSpend wallet recipient amount fee selected).outputs = .ok () := by
    refine validateOutputs_eq_ok.mpr ⟨List.cons_ne_nil _ _, List.forall_mem_cons.mpr ⟨⟨hamount, by simp only; omega, hrecipient⟩,
      fun o ho => ?_⟩⟩
    split at ho
    · cases ho
    · rename_i hchange
      rw [List.mem_singleton] at ho
      subst ho
      exact ⟨by simp only; omega, by simp only; omega, isValidAddress_address wallet⟩
  refine ⟨(validateTransaction_eq_ok hcoinbase).mpr ⟨rfl, houtputs, ?_, ?_, ?_, ?_, hfee⟩, previousOutputs_signedSpend,
    hdistinct, hmem, henough, hsel.tight (by omega), ?_⟩
  · intro hnil
    have hselected : selected = [] := by
      have hnone : selected.map Prod.fst = [] := by
        rw [← previousOutputs_signedSpend, hnil]
        rfl
      exact List.map_eq_nil_iff.mp hnone
    rw [hselected] at henough
    exact absurd henough (by simp only [amountOf, List.map_nil, List.sum_nil]; omega)
  · rw [previousOutputs_signedSpend]
    exact hdistinct
  · intro j x hx
    obtain ⟨utxo, hutxo, rfl⟩ := getElem?_signedSpend hx
    exact ⟨utxo.2, (hmem utxo hutxo).1, hw.validateInputSignature rfl rfl (hmem utxo hutxo).2⟩
  · rw [hinputs]
    show fee = amountOf selected - outputTotal (unsignedSpend wallet recipient amount fee selected).outputs
    rw [outputTotal_unsignedSpend]
    omega
  · show (unsignedSpend wallet recipient amount fee selected).outputs = _
    rw [unsignedSpend]
    by_cases hchange : amountOf selected - (amount + fee) = 0
    · rw [if_pos hchange, if_neg (by omega)]
    · rw [if_neg hchange, if_pos (by omega)]

end

/-- A valid request fails for want of funds exactly when the wallet owns less than the amount and the fee. Otherwise it
gives an exact spend. -/
theorem createTransaction_exact (calls : List Call) (n : ConsensusNode) (hn : World.after calls = .up n) (wallet : Wallet)
    (hw : Signs wallet) (recipient : Str) (hrecipient : isValidAddress recipient = true) (amount fee : Int)
    (hamount : 0 < amount) (hfee : 0 ≤ fee) :
    (n.createTransaction wallet recipient amount fee = .error (consensusNodeError "insufficient funds") ↔
      owned n.state.utxos wallet.address < amount + fee) ∧
    (amount + fee ≤ owned n.state.utxos wallet.address → ∃ selected t,
      n.createTransaction wallet recipient amount fee = .ok t ∧ ExactSpend n wallet recipient amount fee selected t) := by
  have h := nodeOk_after hn
  obtain ⟨selected, hsel, hcreate⟩ := createTransaction_eq n wallet hrecipient hamount hfee
  have hless : amountOf selected < amount + fee ↔ owned n.state.utxos wallet.address < amount + fee := by
    rw [← amountOf_entriesForAddress]
    exact hsel.amount_lt_iff fun utxo hutxo => (h.valued _ _ (mem_entriesForAddress.mp hutxo).1).1
  have hsign : signAll wallet (unsignedSpend wallet recipient amount fee selected) =
      .ok (signedSpend wallet recipient amount fee selected) := signAll_eq _ _
  rw [hcreate, ← hless, hsign]
  refine ⟨?_, fun henough => ?_⟩
  · split
    · rename_i hlt
      exact ⟨fun _ => hlt, fun _ => rfl⟩
    · rename_i hle
      exact ⟨nofun, fun hlt => absurd hlt hle⟩
  · have hle : ¬ amountOf selected < amount + fee := fun hlt => absurd (hless.mp hlt) (not_lt.mpr henough)
    rw [if_neg hle]
    exact ⟨selected, _, rfl, h.exactSpend hw hrecipient hamount hfee hsel (not_lt.mp hle)⟩

/-! ## Alice pays herself -/

/-- A verification that accepts the one signature of Alice's wallet. -/
@[reducible] def aliceAccepts : Ed25519 where
  verify raw signature _ := raw == aliceRaw && some signature == b64decode paymentSignature

omit [Ed25519] in
theorem signs_aliceWallet : @Signs aliceAccepts aliceWallet := fun message => by
  have hkey : b64decode aliceWallet.publicKey.key = some aliceRaw := by decide
  obtain ⟨signature, hsignature⟩ := Option.isSome_iff_exists.mp
    (show (b64decode paymentSignature).isSome = true by decide +kernel)
  refine ⟨List.cons_ne_nil _ _, ?_⟩
  show @verifySignature aliceAccepts aliceWallet.publicKey message paymentSignature = true
  unfold verifySignature
  rw [hkey, hsignature]
  show (keyAlgorithm == keyAlgorithm && (aliceRaw == aliceRaw && some signature == b64decode paymentSignature)) = true
  rw [hsignature, beq_self_eq_true, beq_self_eq_true, beq_self_eq_true]
  rfl

omit [Ed25519] in
theorem createTransaction_exact_payment :
    let _ := aliceAccepts
    (genesisNode.createTransaction aliceWallet aliceAddress 7 3 = .error (consensusNodeError "insufficient funds") ↔
      owned genesisNode.state.utxos aliceWallet.address < 7 + 3) ∧
    (7 + 3 ≤ owned genesisNode.state.utxos aliceWallet.address → ∃ selected t,
      genesisNode.createTransaction aliceWallet aliceAddress 7 3 = .ok t ∧
        ExactSpend genesisNode aliceWallet aliceAddress 7 3 selected t) := by
  intro _
  have hcreated : World.after [.create [(aliceAddress, 10)] ⟨0, 50, 1000⟩ 0 1] = .up genesisNode := by decide +kernel
  exact createTransaction_exact _ genesisNode hcreated aliceWallet signs_aliceWallet aliceAddress (by decide) 7 3
    (by decide) (by decide)

end BCC.Proof
