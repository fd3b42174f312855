import BlockchainCoin.Framework.Checks
import BlockchainCoin.Impl.Network
import BlockchainCoin.Proof.Decode
import BlockchainCoin.Proof.Handshake
import BlockchainCoin.Proof.Raises

/-!
# Parsing messages

`PeerMessage.from_dict` catches what the conversions of the fields of a message and of
a header raise, except an `OverflowError`, and its validators look up fields in
payloads and items that need not be objects. Which JSON objects it parses into a
message of the right shape or refuses with a `NetworkError` is said by `Sound`.
-/

namespace BCC.Proof

open BCC.Impl PyError

/-! ## Exceptions -/

/-- `NetworkError` -/
def ofNetwork : PyError → Bool
  | networkError _ => true
  | _ => false

/-- The exceptions of the conversions of fields. -/
def ofConversion : PyError → Bool
  | overflowError _ => true
  | e => BlockHeader.isMalformed e

/-- The value is too large for the conversion. -/
def Overflows {α : Type} (x : Except PyError α) : Prop := ∃ text, x = .error (overflowError text)

theorem malformed_of_network (e : PyError) (h : ofNetwork e = true) : BlockHeader.isMalformed e = true := by
  cases e <;> first | rfl | cases h

theorem payloadError_of_network (e : PyError) (h : ofNetwork e = true) : isPayloadError e = true := by
  cases e <;> first | rfl | cases h

theorem catchMalformed_iff {α : Type} {x : Except PyError α} {text : String} :
    Raises (ofNetwork ·) (catchAs x BlockHeader.isMalformed (networkError text)) ↔ Raises (BlockHeader.isMalformed ·) x :=
  Raises.catchAs_iff rfl malformed_of_network

theorem catchPayload_iff {α : Type} {x : Except PyError α} {text : String} :
    Raises (ofNetwork ·) (catchAs x isPayloadError (networkError text)) ↔ Raises (isPayloadError ·) x :=
  Raises.catchAs_iff rfl payloadError_of_network

theorem raises_malformed_iff {α : Type} {x : Except PyError α} (h : Raises (ofConversion ·) x) :
    Raises (BlockHeader.isMalformed ·) x ↔ ¬ Overflows x := by
  constructor
  · rintro hx ⟨text, rfl⟩
    cases hx _ rfl
  · intro hx e he
    have hconversion : ofConversion e = true := h e he
    cases e with
    | overflowError text => exact absurd ⟨text, he⟩ hx
    | _ => exact hconversion

section

variable [PyText]

/-! ## Conversions -/

omit [PyText] in
theorem item_raises (value : Json) (key : String) : Raises (BlockHeader.isMalformed ·) (value.item key) := by
  unfold Json.item
  split
  · split <;> first | exact .ok _ | exact .error rfl
  · exact .error rfl

theorem toInt_raises (value : Json) : Raises (ofConversion ·) value.toInt := by
  unfold Json.toInt
  split
  · exact .ok _
  · exact .ok _
  · unfold Json.intOfFloat
    dsimp only
    split
    · split <;> exact .error rfl
    · exact .ok _
  · split <;> first | exact .ok _ | exact .error rfl
  · exact .error rfl

omit [PyText] in
theorem floatOfInt_raises (value : Int) : Raises (ofConversion ·) (Json.floatOfInt value) := by
  unfold Json.floatOfInt
  split
  · exact .ok _
  · refine .bind ?_ fun _ => .pure _
    unfold Json.floatOfNat
    exact .ite (.ok _) (.ite (.ok _) (.error rfl))

theorem toFloat_raises (value : Json) : Raises (ofConversion ·) value.toFloat := by
  unfold Json.toFloat
  split
  · exact .ok _
  · exact floatOfInt_raises _
  · exact floatOfInt_raises _
  · split <;> first | exact .ok _ | exact .error rfl
  · exact .error rfl

omit [PyText] in
theorem conversion_of_malformed {α : Type} {x : Except PyError α} (h : Raises (BlockHeader.isMalformed ·) x) :
    Raises (ofConversion ·) x := h.mono fun e he => by cases e <;> first | rfl | exact he

/-- The conversions of the fields of a header, in their order. -/
def conversions (fields : List (Str × Json)) : List (Except PyError Unit) :=
  [(fun _ => ()) <$> (Json.item (.obj fields) "height" >>= Json.toInt),
    (fun _ => ()) <$> Json.item (.obj fields) "previous_hash",
    (fun _ => ()) <$> Json.item (.obj fields) "transaction_root",
    (fun _ => ()) <$> (Json.item (.obj fields) "difficulty" >>= Json.toInt),
    (fun _ => ()) <$> (Json.item (.obj fields) "timestamp" >>= Json.toFloat),
    (fun _ => ()) <$> (Json.item (.obj fields) "nonce" >>= Json.toInt),
    (fun _ => ()) <$> ((fields.lookup "version".toList).getD (.int 1)).toInt]

omit [PyText] in
theorem seq_raises_iff {α β : Type} {x : Except PyError α} {f : α → Except PyError β} {cs : List (Except PyError Unit)}
    (hx : Raises (ofConversion ·) x)
    (hf : ∀ a, Raises (BlockHeader.isMalformed ·) (f a) ↔ ∀ c, Reached (· = .ok ()) cs c → ¬ Overflows c) :
    Raises (BlockHeader.isMalformed ·) (x >>= f) ↔
      ∀ c, Reached (· = .ok ()) (((fun _ => ()) <$> x) :: cs) c → ¬ Overflows c := by
  rw [Raises.bind_iff, forall_reached_cons, raises_malformed_iff hx]
  cases x with
  | ok a =>
    refine and_congr (iff_of_true nofun nofun) ⟨fun h _ => (hf a).mp (h a rfl), fun h b hb => ?_⟩
    cases hb
    exact (hf a).mpr (h rfl)
  | error e =>
    refine and_congr ?_ (iff_of_true nofun nofun)
    exact not_congr ⟨fun ⟨text, he⟩ => ⟨text, by cases he; rfl⟩, fun ⟨text, he⟩ => ⟨text, by cases he; rfl⟩⟩

/-- The fields of a header are read without an `OverflowError` when the first of their conversions that fails
does not overflow. -/
theorem readFields_raises_iff (fields : List (Str × Json)) :
    Raises (BlockHeader.isMalformed ·) (BlockHeader.readFields (.obj fields)) ↔
      ∀ c, Reached (· = .ok ()) (conversions fields) c → ¬ Overflows c := by
  have hitem : ∀ key, Raises (ofConversion ·) (Json.item (.obj fields) key) := fun key =>
    conversion_of_malformed (item_raises _ key)
  have hint : ∀ key, Raises (ofConversion ·) (Json.item (.obj fields) key >>= Json.toInt) := fun key =>
    .bind (hitem key) toInt_raises
  unfold BlockHeader.readFields conversions
  refine seq_raises_iff (hint _) fun _ => seq_raises_iff (hitem _) fun _ => seq_raises_iff (hitem _) fun _ => ?_
  refine seq_raises_iff (hint _) fun _ => seq_raises_iff (.bind (hitem _) toFloat_raises) fun _ => ?_
  refine seq_raises_iff (hint _) fun _ => seq_raises_iff (toInt_raises _) fun _ => ?_
  exact iff_of_true (.pure _) fun _ h => absurd h not_reached_nil

/-! ## Headers -/

/-- The integers of a header fit into the 64-bit fields of its encoding. -/
def Encodes (h : BlockHeader) : Prop := IsInt64 h.height ∧ IsInt64 h.difficulty ∧ IsInt64 h.nonce

/-- The checks of a header before its hash is compared. -/
structure ValidFields (h : BlockHeader) : Prop where
  height : ¬ h.height < 0
  difficulty : ¬ h.difficulty < 0
  version : ¬ h.version ≠ 1
  previousHash : ¬ isHashText h.previousHash = false
  transactionRoot : ¬ isHashText h.transactionRoot = false

omit [PyText] in
theorem validFields_imp {h : BlockHeader} {P : Prop} : (ValidFields h → P) ↔ (¬ h.height < 0 → ¬ h.difficulty < 0 →
    ¬ h.version ≠ 1 → ¬ isHashText h.previousHash = false → ¬ isHashText h.transactionRoot = false → P) :=
  ⟨fun hP h₁ h₂ h₃ h₄ h₅ => hP ⟨h₁, h₂, h₃, h₄, h₅⟩, fun hP hv =>
    hP hv.height hv.difficulty hv.version hv.previousHash hv.transactionRoot⟩

omit [PyText] in
theorem isHash_of_isHashText {s : Str} (h : ¬ isHashText s = false) : IsHash s := by
  rw [Bool.not_eq_false, isHashText, Bool.and_eq_true, beq_iff_eq, List.all_eq_true] at h
  exact ⟨h.1, fun c hc => List.contains_iff_mem.mp (h.2 c hc)⟩

omit [PyText] in
theorem hash_returns_iff {h : BlockHeader} (hv : ValidFields h) : (∃ hash, h.hash = .ok hash) ↔ Encodes h := by
  simp only [BlockHeader.hash, ConsensusBlock.hash, ConsensusBlock.headerBytes]
  constructor
  · rintro ⟨hash, hh⟩
    simp only [bind_eq_ok] at hh
    obtain ⟨_, ⟨_, -, _, hheight, _, -, _, -, _, hdifficulty, _, hnonce, -⟩, -⟩ := hh
    exact ⟨isInt64_iff.mpr ⟨_, hheight⟩, isInt64_iff.mpr ⟨_, hdifficulty⟩, isInt64_iff.mpr ⟨_, hnonce⟩⟩
  · rintro ⟨hheight, hdifficulty, hnonce⟩
    have hversion : IsInt64 h.version := by rw [not_not.mp hv.version]; exact ⟨by decide, by decide⟩
    obtain ⟨_, hversion⟩ := isInt64_iff.mp hversion
    obtain ⟨_, hheight⟩ := isInt64_iff.mp hheight
    obtain ⟨_, hdifficulty⟩ := isInt64_iff.mp hdifficulty
    obtain ⟨_, hnonce⟩ := isInt64_iff.mp hnonce
    obtain ⟨_, -, -, hprevious⟩ := (isHash_of_isHashText hv.previousHash).encodeHash
    obtain ⟨_, -, -, hroot⟩ := (isHash_of_isHashText hv.transactionRoot).encodeHash
    simp only [hversion, hheight, hprevious, hroot, hdifficulty, hnonce, ok_bind]
    exact ⟨_, rfl⟩

omit [PyText] in
/-- The hash of a checked header raises no `struct.error` when its integers fit. -/
theorem hash_raises_iff {h : BlockHeader} (hv : ValidFields h) : Raises (ofNetwork ·) h.hash ↔ Encodes h := by
  rw [← hash_returns_iff hv]
  exact Raises.iff_returns (hash_raises _) fun e he hn => by
    cases e <;> first | (cases hn; done) | cases he

/-- What an object has at a key, or `None`. -/
def field (fields : List (Str × Json)) (key : String) : Json := (fields.lookup key.toList).getD .null

omit [PyText] in
theorem get_obj (fields : List (Str × Json)) (key : String) : Json.get (.obj fields) key = .ok (field fields key) := rfl

/-- The fields of a header can be converted, and its hash computed where it has to be compared with a given one. -/
def LegibleFields (fields : List (Str × Json)) : Prop :=
  (∀ c, Reached (· = .ok ()) (conversions fields) c → ¬ Overflows c) ∧
    ∀ h, BlockHeader.readFields (.obj fields) = .ok h → ValidFields h → field fields "hash" ≠ .null → Encodes h

theorem fromDict_header_eq_ok {fields : List (Str × Json)} {h : BlockHeader} (hh : BlockHeader.fromDict (.obj fields) = .ok h) :
    ValidFields h := by
  simp only [BlockHeader.fromDict, bind_eq_ok, exists_unit, raiseIf_eq_ok, catchAs_eq_ok] at hh
  obtain ⟨h', -, _, -, hheight, hdifficulty, hversion, hprevious, hroot, hh⟩ := hh
  have hsame : h' = h := by
    split at hh
    · exact (pure_eq_ok.mp hh).symm ▸ rfl
    · simp only [bind_eq_ok, exists_unit, raiseIf_eq_ok, pure_eq_ok] at hh
      obtain ⟨_, -, -, rfl⟩ := hh
      rfl
  exact hsame ▸ ⟨hheight, hdifficulty, hversion, hprevious, hroot⟩

theorem fromDict_header_raises_iff (fields : List (Str × Json)) :
    Raises (ofNetwork ·) (BlockHeader.fromDict (.obj fields)) ↔ LegibleFields fields := by
  unfold BlockHeader.fromDict LegibleFields
  rw [Raises.bind_iff, catchMalformed_iff, readFields_raises_iff]
  refine and_congr_right fun _ => forall_congr' fun h => ?_
  rw [catchAs_eq_ok, get_obj, ok_bind]
  refine imp_congr_right fun _ => ?_
  -- The five checks raise a `NetworkError`; what follows them is reached by a valid header.
  have hcheck : ∀ {p : Prop} {_ : Decidable p} {text : String} {x : Except PyError BlockHeader},
      Raises (ofNetwork ·) (raiseIf p (networkError text) >>= fun _ => x) ↔ (¬ p → Raises (ofNetwork ·) x) :=
    fun {p _ text x} => by
      rw [Raises.bind_iff]
      constructor
      · exact fun h hp => h.2 () (raiseIf_eq_ok.mpr hp)
      · exact fun h => ⟨.raiseIf rfl, fun _ hp => h (raiseIf_eq_ok.mp hp)⟩
  rw [hcheck, hcheck, hcheck, hcheck, hcheck]
  rw [← validFields_imp]
  refine forall_congr' fun hv => ?_
  split
  · rename_i hnull
    exact iff_of_true (.pure _) fun hne => absurd hnull hne
  · rename_i hne
    rw [Raises.bind_iff, hash_raises_iff hv]
    exact ⟨fun hraises _ => hraises.1, fun hencodes => ⟨hencodes hne, fun _ _ => .bind (.raiseIf rfl) fun _ => .pure _⟩⟩

/-! ## Items -/

omit [PyText] in
theorem toDict_eq_ok {item data : Json} (h : item.toDict = .ok data) : ∃ fields, data = .obj fields := by
  unfold Json.toDict at h
  split at h
  · cases h
    exact ⟨_, rfl⟩
  · simp only [bind_eq_ok, pure_eq_ok] at h
    obtain ⟨_, -, _, -, rfl⟩ := h
    exact ⟨_, rfl⟩

/-- The exceptions of `dict(value)`. -/
def ofDict : PyError → Bool
  | typeError _ | valueError _ => true
  | _ => false

omit [PyText] in
theorem toDict_raises (item : Json) : Raises (ofDict ·) item.toDict := by
  have hiter : ∀ value : Json, Raises (ofDict ·) value.iter := fun value => by
    unfold Json.iter
    split <;> first | exact .ok _ | exact .error rfl
  unfold Json.toDict
  split
  · exact .ok _
  · refine .bind (hiter _) fun elements => .bind (.mapM (fun element => ?_) elements) fun _ => .pure _
    refine .bind (hiter element) fun parts => ?_
    split <;> first | exact .throw rfl | exact .pure _

omit [PyText] in
/-- What is read from `dict(item)` raises nothing but a `NetworkError` when the item is a mapping from which it can
be read. -/
theorem dict_raises_iff {α : Type} {item : Json} {f : Json → Except PyError α} : Raises (ofNetwork ·) (item.toDict >>= f) ↔
    ∃ fields, item.toDict = .ok (.obj fields) ∧ Raises (ofNetwork ·) (f (.obj fields)) := by
  rw [Raises.bind_iff, Raises.iff_returns (toDict_raises item) fun e he hn => by
    cases e <;> first | (cases hn; done) | cases he]
  constructor
  · rintro ⟨⟨data, hdata⟩, hf⟩
    obtain ⟨fields, rfl⟩ := toDict_eq_ok hdata
    exact ⟨fields, hdata, hf _ hdata⟩
  · rintro ⟨fields, hdata, hf⟩
    refine ⟨⟨_, hdata⟩, fun data hdata' => ?_⟩
    rw [hdata] at hdata'
    cases hdata'
    exact hf

/-- An object has a value at a key. -/
def Has (fields : List (Str × Json)) (key : String) : Prop := (fields.lookup key.toList).isSome = true

omit [PyText] in
theorem item_raises_iff (fields : List (Str × Json)) (key : String) :
    Raises (ofNetwork ·) (Json.item (.obj fields) key) ↔ Has fields key := by
  unfold Has
  cases h : fields.lookup key.toList with
  | some value =>
    refine iff_of_true ?_ rfl
    rw [show Json.item (.obj fields) key = .ok value by rw [Json.item, h]]
    exact .ok value
  | none =>
    refine iff_of_false (fun hr => ?_) Bool.false_ne_true
    cases hr (keyError key) (by rw [Json.item, h])

/-- An inventory item that `dict` makes a mapping with a kind and a hash. -/
def LegibleItem (item : Json) : Prop := ∃ fields, item.toDict = .ok (.obj fields) ∧ Has fields "kind" ∧ Has fields "hash"

/-- What the loop of `_validate_inventory` does with an item. -/
def checkItem (item : Json) : Except PyError Unit := do
  let data ← item.toDict
  let _ ← InventoryVector.fromDict data
  pure ()

theorem checkItem_raises_iff (item : Json) : Raises (ofNetwork ·) (checkItem item) ↔ LegibleItem item := by
  rw [checkItem, dict_raises_iff, LegibleItem]
  refine exists_congr fun fields => and_congr_right fun _ => ?_
  rw [Raises.bind_iff, and_iff_left fun _ _ => .pure _, InventoryVector.fromDict, Raises.bind_iff, item_raises_iff]
  refine and_congr_right fun hkind => ?_
  obtain ⟨kind, hkind⟩ := Option.isSome_iff_exists.mp hkind
  have hget : Json.item (.obj fields) "kind" = .ok kind := by rw [Json.item, hkind]
  constructor
  · intro h
    exact (item_raises_iff fields "hash").mp (Raises.bind_iff.mp (h kind hget)).1
  · intro h _ _
    exact Raises.bind_iff.mpr ⟨(item_raises_iff fields "hash").mpr h,
      fun _ _ => .bind (.raiseIf rfl) fun _ => .bind (.raiseIf rfl) fun _ => .pure _⟩

/-- A header that `dict` makes a mapping whose fields can be read. -/
def LegibleHeader (item : Json) : Prop := ∃ fields, item.toDict = .ok (.obj fields) ∧ LegibleFields fields

/-- What `headers_from_payload` makes of an element of the list. -/
def parseHeader (item : Json) : Except PyError BlockHeader := item.toDict >>= BlockHeader.fromDict

theorem parseHeader_raises_iff (item : Json) : Raises (ofNetwork ·) (parseHeader item) ↔ LegibleHeader item := by
  rw [parseHeader, dict_raises_iff, LegibleHeader]
  exact exists_congr fun fields => and_congr_right fun _ => fromDict_header_raises_iff fields

theorem parseHeader_eq_ok {item : Json} {h : BlockHeader} (hh : parseHeader item = .ok h) : ValidFields h := by
  obtain ⟨data, hdata, hh⟩ := bind_eq_ok.mp hh
  obtain ⟨fields, rfl⟩ := toDict_eq_ok hdata
  exact fromDict_header_eq_ok hh

/-! ## Chains of headers -/

/-- What the loop of `validate_header_chain` does with a header. -/
def checkHeader (prior : Option (Str × Int)) (header : BlockHeader) : Except PyError (Str × Int) := do
  let hash ← header.hash
  raiseIf (¬ (List.replicate header.difficulty.toNat '0').isPrefixOf hash = true)
    (networkError "block header proof of work is invalid")
  match prior with
  | none => return (hash, header.height)
  | some (priorHash, priorHeight) => do
    raiseIf (header.previousHash ≠ priorHash) (networkError "block headers are disconnected")
    raiseIf (header.height ≠ priorHeight + 1) (networkError "block header height is not sequential")
    return (hash, header.height)

omit [PyText] in
theorem validateHeaders_cons (prior : Option (Str × Int)) (header : BlockHeader) (headers : List BlockHeader) :
    validateHeaders prior (header :: headers) = checkHeader prior header >>= fun p => validateHeaders (some p) headers := by
  unfold checkHeader
  rw [validateHeaders]
  cases prior <;> simp only [bind_assoc, pure_bind]

omit [PyText] in
theorem checkHeader_raises_iff {prior : Option (Str × Int)} {header : BlockHeader} (hv : ValidFields header) :
    Raises (ofNetwork ·) (checkHeader prior header) ↔ Encodes header := by
  rw [checkHeader, Raises.bind_iff, hash_raises_iff hv]
  refine and_iff_left fun _ _ => .bind (.raiseIf rfl) fun _ => ?_
  cases prior with
  | none => exact .pure _
  | some => exact .bind (.raiseIf rfl) fun _ => .bind (.raiseIf rfl) fun _ => .pure _

/-- The integers of every header that the loop comes to fit into its encoding. -/
def EncodesReached (prior : Option (Str × Int)) (headers : List BlockHeader) : Prop :=
  ∀ before header after, headers = before ++ header :: after → validateHeaders prior before = .ok () → Encodes header

omit [PyText] in
theorem validateHeaders_raises_iff : ∀ {headers : List BlockHeader} {prior : Option (Str × Int)},
    (∀ header ∈ headers, ValidFields header) →
    (Raises (ofNetwork ·) (validateHeaders prior headers) ↔ EncodesReached prior headers)
  | [], _, _ => iff_of_true (.ok ()) fun before _ _ h => by cases before <;> cases h
  | header :: headers, prior, hv => by
    rw [List.forall_mem_cons] at hv
    rw [validateHeaders_cons, Raises.bind_iff, checkHeader_raises_iff hv.1]
    constructor
    · rintro ⟨hencodes, hrest⟩ before h after hsplit hbefore
      cases before with
      | nil =>
        rw [List.nil_append, List.cons.injEq] at hsplit
        exact hsplit.1 ▸ hencodes
      | cons b before =>
        rw [List.cons_append, List.cons.injEq] at hsplit
        rw [← hsplit.1, validateHeaders_cons] at hbefore
        obtain ⟨p, hp, hbefore⟩ := bind_eq_ok.mp hbefore
        exact (validateHeaders_raises_iff hv.2).mp (hrest p hp) before h after hsplit.2 hbefore
    · intro h
      refine ⟨h [] header headers rfl rfl, fun p hp => (validateHeaders_raises_iff hv.2).mpr ?_⟩
      intro before h' after hsplit hbefore
      refine h (header :: before) h' after (by rw [hsplit]; rfl) ?_
      rw [validateHeaders_cons]
      exact bind_eq_ok.mpr ⟨p, hp, hbefore⟩

/-- Every element that the loop comes to can be read, and if all make headers, so does every header's hash. -/
def LegibleHeaders (items : List Json) : Prop :=
  (∀ item, Reached (fun item => ∃ h, parseHeader item = .ok h) items item → LegibleHeader item) ∧
    ∀ headers, items.mapM parseHeader = .ok headers → EncodesReached none headers

/-! ## Payloads -/

omit [PyText] in
theorem get_raises_iff {α : Type} {payload : Json} {key : String} {f : Json → Except PyError α} :
    Raises (ofNetwork ·) (payload.get key >>= f) ↔
      ∃ fields, payload = .obj fields ∧ Raises (ofNetwork ·) (f (field fields key)) := by
  cases payload with
  | obj fields =>
    rw [get_obj, ok_bind]
    exact ⟨fun h => ⟨fields, rfl, h⟩, fun ⟨fields', he, h⟩ => by cases he; exact h⟩
  | _ => exact iff_of_false (fun h => by cases h _ rfl) fun ⟨_, he, _⟩ => by cases he

theorem headersFromPayload_raises_iff {payload : Json} : Raises (ofNetwork ·) (headersFromPayload payload) ↔
    ∃ fields, payload = .obj fields ∧ ∀ items, field fields "headers" = .arr items → ¬ 2000 < items.length →
      LegibleHeaders items := by
  rw [headersFromPayload, get_raises_iff]
  refine exists_congr fun fields => and_congr_right fun _ => ?_
  cases field fields "headers" with
  | arr items =>
    have hraises : Raises (ofNetwork ·) (items.mapM parseHeader >>= validateHeaderChain) ↔ LegibleHeaders items := by
      rw [Raises.bind_iff, Raises.mapM_iff, LegibleHeaders]
      refine and_congr (forall₂_congr fun item _ => parseHeader_raises_iff item) (forall₂_congr fun headers hheaders => ?_)
      have hvalid : ∀ header ∈ headers, ValidFields header := fun header hheader => by
        obtain ⟨_, hparse⟩ := mem_of_mapM_eq_ok hheaders header hheader
        exact parseHeader_eq_ok hparse
      rw [validateHeaderChain, Raises.bind_iff, validateHeaders_raises_iff hvalid]
      exact and_iff_left fun _ _ => .pure _
    constructor
    · intro h items' he hlen
      cases he
      exact hraises.mp ((Raises.bind_iff.mp h).2 () (raiseIf_eq_ok.mpr hlen))
    · exact fun h => Raises.bind_iff.mpr ⟨.raiseIf rfl, fun _ hlen => hraises.mpr (h items rfl (raiseIf_eq_ok.mp hlen))⟩
  | _ => exact iff_of_true (.throw rfl) fun _ he => by cases he

/-! ## Binary payloads -/

/-- Every exception of a reader is one that a payload is refused with. -/
def Refuses {α : Type} (r : Reader α) : Prop := ∀ payload, Raises (isPayloadError ·) (r payload)

namespace Refuses

variable {α β : Type}

omit [PyText] in
theorem pure (a : α) : Refuses (Pure.pure a : Reader α) := fun _ => .pure _

omit [PyText] in
theorem throw (text : String) : Refuses (MonadExcept.throw (consensusError text) : Reader α) := fun _ => .throw rfl

omit [PyText] in
theorem bind {r : Reader α} {f : α → Reader β} (hr : Refuses r) (hf : ∀ a, Refuses (f a)) : Refuses (r >>= f) :=
  fun payload => Raises.bind (hr payload) fun p => hf p.1 p.2

omit [PyText] in
theorem read (size : Nat) : Refuses (Reader.read size) := fun _ => .ite (.error rfl) (.ok _)

omit [PyText] in
theorem readMany {r : Reader α} (hr : Refuses r) : ∀ count, Refuses (Reader.readMany r count)
  | 0 => pure []
  | count + 1 => bind hr fun _ => bind (readMany hr count) fun _ => pure _

omit [PyText] in
theorem readExpected (expected : Bytes) (text : String) : Refuses (Reader.readExpected expected text) :=
  bind (read _) fun _ => by
    split
    · exact pure ()
    · exact throw text

omit [PyText] in
theorem readOptional {r : Reader α} (hr : Refuses r) (text : String) : Refuses (Reader.readOptional r text) :=
  bind (read _) fun _ => by
    split
    · exact pure none
    · split
      · exact bind hr fun _ => pure _
      · exact throw text

omit [PyText] in
theorem run' {r : Reader α} (hr : Refuses r) (payload : Bytes) :
    Raises (isPayloadError ·) ((Reader.finished r).run' payload) :=
  .map _ (bind hr (fun _ => bind (fun _ => .ite (.error rfl) (.ok _)) fun _ => pure _) payload)

end Refuses

omit [PyText] in
theorem decodeInt_refuses : Refuses decodeInt := .bind (.read 8) fun _ => .pure _

omit [PyText] in
theorem decodeUint_refuses : Refuses decodeUint := .bind (.read 8) fun _ => .pure _

omit [PyText] in
theorem decodeBytes_refuses : Refuses decodeBytes := .bind (.read 4) fun _ => .read _

omit [PyText] in
theorem decodeText_refuses : Refuses decodeText := .bind decodeBytes_refuses fun _ => by
  split
  · exact .pure _
  · exact .throw _

omit [PyText] in
theorem transactionReader_refuses : Refuses (ConsensusTransaction.fromReader true) := by
  have hkey : Refuses decodePublicKey := .bind decodeText_refuses fun _ => .bind decodeText_refuses fun _ => .pure _
  have hinput : Refuses (TxInput.fromReader true) := .bind (.bind (.read 32) fun _ => .bind decodeInt_refuses fun _ => .pure _)
    fun _ => .bind (.readOptional decodeText_refuses _) fun _ => .bind (.readOptional hkey _) fun _ => .pure _
  have houtput : Refuses TxOutput.fromReader := .bind decodeUint_refuses fun _ => .bind decodeText_refuses fun _ => .pure _
  refine .bind (.readExpected _ _) fun _ => .bind (.readExpected _ _) fun _ => .bind decodeInt_refuses fun _ => ?_
  exact .bind decodeUint_refuses fun _ => .bind (.readMany hinput _) fun _ => .bind decodeUint_refuses fun _ =>
    .bind (.readMany houtput _) fun _ => .pure _

omit [PyText] in
theorem blockReader_refuses : Refuses ConsensusBlock.fromReader := by
  have hfield : Refuses ConsensusTransaction.decodeField := .bind decodeBytes_refuses fun raw payload =>
    .bind (transactionReader_refuses.run' raw) fun _ => .pure _
  refine .bind (.readExpected _ _) fun _ => .bind (.readExpected _ _) fun _ => .bind decodeInt_refuses fun _ => ?_
  refine .bind decodeInt_refuses fun _ => .bind (.read _) fun _ => .bind (.read _) fun _ => .bind decodeInt_refuses fun _ => ?_
  refine .bind (.bind (.read 8) fun _ => .pure _) fun _ => .bind decodeInt_refuses fun _ => .bind decodeUint_refuses fun _ => ?_
  exact .bind (.readMany hfield _) fun _ => .pure _

omit [PyText] in
theorem bytesFromhex_raises (value : Str) : Raises (isPayloadError ·) (bytesFromhex value) := by
  unfold bytesFromhex
  split <;> first | exact .ok _ | exact .error rfl

omit [PyText] in
/-- A payload of hexadecimal text is decoded, or refused with a `NetworkError`. -/
theorem binaryPayload_raises_iff {α : Type} {payload : Json} {key text text' : String} {decode : Bytes → Except PyError α}
    (hdecode : ∀ raw, Raises (isPayloadError ·) (decode raw)) :
    Raises (ofNetwork ·) (do
      let raw ← payload.get key
      match raw with
      | .str value => catchAs (bytesFromhex value >>= decode) isPayloadError (networkError text)
      | _ => throw (networkError text')) ↔ ∃ fields, payload = .obj fields := by
  rw [get_raises_iff]
  refine exists_congr fun fields => and_iff_left ?_
  split
  · exact catchPayload_iff.mpr (.bind (bytesFromhex_raises _) hdecode)
  · exact .throw rfl

omit [PyText] in
theorem transactionFromPayload_raises_iff {payload : Json} :
    Raises (ofNetwork ·) (transactionFromPayload payload) ↔ ∃ fields, payload = .obj fields :=
  binaryPayload_raises_iff transactionReader_refuses.run'

omit [PyText] in
theorem blockFromPayload_raises_iff {payload : Json} :
    Raises (ofNetwork ·) (blockFromPayload payload) ↔ ∃ fields, payload = .obj fields :=
  binaryPayload_raises_iff blockReader_refuses.run'

/-! ## Shapes of payloads -/

/-- A list, not longer than the limit, of objects with the kind and the hash of an item. -/
def InventoryShape (fields : List (Str × Json)) : Prop :=
  ∃ items, field fields "items" = .arr items ∧ items.length ≤ maxInventoryItems ∧
    ∀ item ∈ items, (∃ data, item = .obj data) ∧ ∃ v, InventoryVector.fromDict item = .ok v

/-- A hexadecimal text that can be decoded. -/
def BinaryShape {α : Type} (decode : Bytes → Except PyError α) (given : Json) : Prop :=
  ∃ value, given = .str value ∧ ∃ a, (bytesFromhex value >>= decode) = .ok a

/-- The fields that a message of a type needs. -/
def FieldsShape : MessageType → List (Str × Json) → Prop
  | .version, fields => (field fields "network").isNonEmptyText = true ∧ (field fields "height").isIntFrom (-1) = true ∧
      (field fields "node_id").isNonEmptyText = true
  | .verack, fields => fields = []
  | .ping, fields | .pong, fields => (field fields "nonce").isIntFrom 0 = true
  | .inv, fields | .getdata, fields => InventoryShape fields
  | .getheaders, fields => (∃ items, field fields "locator" = .arr items ∧ ∀ item ∈ items, isHash item = true) ∧
      ((field fields "limit").isIntFrom 0 = true ∧ (field fields "limit").isIntFrom 2001 = false) ∧
      ((field fields "stop_hash").isNull = true ∨ isHash (field fields "stop_hash") = true)
  | .headers, fields => ∃ items, field fields "headers" = .arr items ∧ items.length ≤ 2000 ∧
      ∃ headers, items.mapM parseHeader = .ok headers ∧ validateHeaderChain headers = .ok headers
  | .tx, fields => BinaryShape (fun raw => ConsensusTransaction.fromBytes raw) (field fields "transaction_bytes")
  | .block, fields => BinaryShape ConsensusBlock.fromBytes (field fields "block_bytes")
  | .reject, fields => (field fields "reason").isNonEmptyText = true

/-- The payload is an object of the shape that the type of the message requires. -/
def Shaped (m : PeerMessage) : Prop := ∃ fields, m.payload = .obj fields ∧ FieldsShape m.messageType fields

/-- Every item that the loop comes to can be read, and if all pass, they are objects. -/
def LegibleItems (items : List Json) : Prop :=
  (∀ item, Reached (checkItem · = .ok ()) items item → LegibleItem item) ∧
    ((∀ item ∈ items, checkItem item = .ok ()) → ∀ item ∈ items, ∃ data, item = .obj data)

/-- The payloads of a type that are found to be of the required shape, or are refused with a `NetworkError`. -/
def SoundPayload (messageType : MessageType) (payload : Json) : Prop :=
  match messageType with
  | .verack => payload.truthy = false → ∃ fields, payload = .obj fields
  | .inv | .getdata => ∃ fields, payload = .obj fields ∧
      ∀ items, field fields "items" = .arr items → ¬ maxInventoryItems < items.length → LegibleItems items
  | .headers => ∃ fields, payload = .obj fields ∧
      ∀ items, field fields "headers" = .arr items → ¬ 2000 < items.length → LegibleHeaders items
  | _ => ∃ fields, payload = .obj fields

omit [PyText] in
theorem object_of_get {α : Type} {payload : Json} {key : String} {f : Json → Except PyError α}
    (h : Raises (ofNetwork ·) (payload.get key >>= f)) : ∃ fields, payload = .obj fields :=
  (get_raises_iff.mp h).imp fun _ => And.left

omit [PyText] in
/-- A validator finds out that what is not an object has no fields. -/
theorem sound_object_iff {payload : Json} {v : Json → Except PyError Unit} {S : List (Str × Json) → Prop}
    (hobject : Raises (ofNetwork ·) (v payload) → ∃ fields, payload = .obj fields) :
    (Raises (ofNetwork ·) (v payload) ∧ (v payload = .ok () → ∃ fields, payload = .obj fields ∧ S fields)) ↔
      ∃ fields, payload = .obj fields ∧ Raises (ofNetwork ·) (v (.obj fields)) ∧ (v (.obj fields) = .ok () → S fields) := by
  constructor
  · rintro ⟨hraises, hshape⟩
    obtain ⟨fields, rfl⟩ := hobject hraises
    refine ⟨fields, rfl, hraises, fun hok => ?_⟩
    obtain ⟨fields', he, hS⟩ := hshape hok
    cases he
    exact hS
  · rintro ⟨fields, rfl, hraises, hshape⟩
    exact ⟨hraises, fun hok => ⟨fields, rfl, hshape hok⟩⟩

omit [PyText] in
/-- A validator that refuses the objects that do not have the shape. -/
theorem sound_of_refuses {payload : Json} {v : Json → Except PyError Unit} {S : List (Str × Json) → Prop}
    (hobject : Raises (ofNetwork ·) (v payload) → ∃ fields, payload = .obj fields)
    (hraises : ∀ fields, Raises (ofNetwork ·) (v (.obj fields))) (hshape : ∀ fields, v (.obj fields) = .ok () → S fields) :
    (Raises (ofNetwork ·) (v payload) ∧ (v payload = .ok () → ∃ fields, payload = .obj fields ∧ S fields)) ↔
      ∃ fields, payload = .obj fields :=
  (sound_object_iff hobject).trans (exists_congr fun fields => and_iff_left ⟨hraises fields, hshape fields⟩)

open PeerMessage

theorem shape_of_validateVersion {fields : List (Str × Json)} (h : validateVersion (.obj fields) = .ok ()) :
    FieldsShape .version fields := by
  simp only [validateVersion, get_obj, ok_bind, bind_eq_ok, exists_unit, raiseIf_eq_ok, Bool.not_eq_false] at h
  exact h

omit [PyText] in
theorem shape_of_validateEmpty {fields : List (Str × Json)} (h : validateEmpty (.obj fields) = .ok ()) : fields = [] := by
  have hempty : (!fields.isEmpty) = false := Bool.not_eq_true _ ▸ raiseIf_eq_ok.mp h
  exact List.isEmpty_iff.mp (Bool.not_eq_false' .. ▸ hempty)

omit [PyText] in
theorem shape_of_validateNonce {fields : List (Str × Json)} (h : validateNonce (.obj fields) = .ok ()) :
    (field fields "nonce").isIntFrom 0 = true := by
  simpa only [validateNonce, get_obj, ok_bind, raiseIf_eq_ok, Bool.not_eq_false] using h

omit [PyText] in
theorem shape_of_validateReject {fields : List (Str × Json)} (h : validateReject (.obj fields) = .ok ()) :
    (field fields "reason").isNonEmptyText = true := by
  simpa only [validateReject, get_obj, ok_bind, raiseIf_eq_ok, Bool.not_eq_false] using h

theorem shape_of_validateGetheaders {fields : List (Str × Json)} (h : validateGetheaders (.obj fields) = .ok ()) :
    FieldsShape .getheaders fields := by
  simp only [validateGetheaders, get_obj, ok_bind] at h
  cases hlocator : field fields "locator" with
  | arr items =>
    simp only [hlocator, bind_eq_ok, exists_unit, raiseIf_eq_ok, forM_eq_ok, Bool.not_eq_false, not_or, not_and_or,
      Bool.not_eq_true] at h
    obtain ⟨hlimit, hstop, hitems⟩ := h
    exact ⟨⟨items, hlocator, hitems⟩, hlimit, hstop⟩
  | _ =>
    simp only [hlocator] at h
    cases h

omit [PyText] in
theorem binaryPayload_eq_ok {α : Type} {fields : List (Str × Json)} {key text text' : String} {decode : Bytes → Except PyError α}
    {a : α} (h : (do
      let raw ← Json.get (.obj fields) key
      match raw with
      | .str value => catchAs (bytesFromhex value >>= decode) isPayloadError (networkError text)
      | _ => throw (networkError text')) = .ok a) : BinaryShape decode (field fields key) := by
  rw [get_obj, ok_bind] at h
  cases hfield : field fields key with
  | str value =>
    simp only [hfield, catchAs_eq_ok] at h
    exact ⟨value, rfl, a, h⟩
  | _ =>
    simp only [hfield] at h
    cases h

omit [PyText] in
theorem validateVersion_raises (fields : List (Str × Json)) : Raises (ofNetwork ·) (validateVersion (.obj fields)) := by
  simp only [validateVersion, get_obj, ok_bind]
  exact .bind (.raiseIf rfl) fun _ => .bind (.raiseIf rfl) fun _ => .raiseIf rfl

omit [PyText] in
theorem validateGetheaders_raises (fields : List (Str × Json)) : Raises (ofNetwork ·) (validateGetheaders (.obj fields)) := by
  have hitem : ∀ item, Raises (ofNetwork ·) (raiseIf (isHash item = false) (networkError "header locator hash is invalid")) :=
    fun _ => .raiseIf rfl
  simp only [validateGetheaders, get_obj, ok_bind]
  split
  · exact .bind (.raiseIf rfl) fun _ => .bind (.raiseIf rfl) fun _ => .forM hitem _
  · exact .throw rfl

theorem validateInventory_arr {fields : List (Str × Json)} {items : List Json} (h : field fields "items" = .arr items) :
    validateInventory (.obj fields) = (do
      raiseIf (maxInventoryItems < items.length) (networkError "inventory items exceed maximum count")
      items.forM checkItem) := by
  rw [validateInventory, get_obj, ok_bind, h]
  rfl

theorem checkItem_obj {data : List (Str × Json)} :
    checkItem (.obj data) = .ok () ↔ ∃ v, InventoryVector.fromDict (.obj data) = .ok v := by
  simp only [checkItem, Json.toDict, ok_bind, bind_eq_ok, pure_eq_ok, and_true]

theorem sound_inventory {payload : Json} : (Raises (ofNetwork ·) (validateInventory payload) ∧
      (validateInventory payload = .ok () → ∃ fields, payload = .obj fields ∧ InventoryShape fields)) ↔
    ∃ fields, payload = .obj fields ∧
      ∀ items, field fields "items" = .arr items → ¬ maxInventoryItems < items.length → LegibleItems items := by
  rw [sound_object_iff object_of_get]
  refine exists_congr fun fields => and_congr_right fun _ => ?_
  cases hitems : field fields "items" with
  | arr items =>
    simp only [validateInventory_arr hitems, Raises.bind_iff, Raises.forM_iff, checkItem_raises_iff, bind_eq_ok, exists_unit,
      raiseIf_eq_ok, forM_eq_ok, InventoryShape, hitems, Json.arr.injEq, LegibleItems]
    constructor
    · rintro ⟨⟨-, hraises⟩, hshape⟩ _ rfl hlen
      refine ⟨hraises () hlen, fun hpass item hitem => ?_⟩
      obtain ⟨_, rfl, -, hshape⟩ := hshape ⟨hlen, hpass⟩
      exact (hshape item hitem).1
    · intro h
      refine ⟨⟨.raiseIf rfl, fun _ hlen => (h items rfl hlen).1⟩, fun ⟨hlen, hpass⟩ => ⟨items, rfl, not_lt.mp hlen, ?_⟩⟩
      intro item hitem
      obtain ⟨data, rfl⟩ := (h items rfl hlen).2 hpass item hitem
      exact ⟨⟨data, rfl⟩, checkItem_obj.mp (hpass _ hitem)⟩
  | _ =>
    have hraise : ∃ text, validateInventory (.obj fields) = .error (networkError text) :=
      ⟨_, by rw [validateInventory, get_obj, ok_bind, hitems]; rfl⟩
    obtain ⟨text, hraise⟩ := hraise
    rw [hraise]
    exact iff_of_true ⟨.error rfl, nofun⟩ nofun

omit [PyText] in
/-- A validator that makes something of the payload, of which it needs no more than that it can be made. -/
theorem sound_make {α : Type} {payload : Json} {f : Json → Except PyError α} {S : List (Str × Json) → Prop}
    (hobject : Raises (ofNetwork ·) (f payload) → ∃ fields, payload = .obj fields)
    (hshape : ∀ fields a, f (.obj fields) = .ok a → S fields) :
    (Raises (ofNetwork ·) (f payload >>= fun _ => pure ()) ∧
      ((f payload >>= fun _ => pure ()) = .ok () → ∃ fields, payload = .obj fields ∧ S fields)) ↔
    Raises (ofNetwork ·) (f payload) := by
  rw [Raises.bind_iff, and_iff_left fun _ _ => .pure _]
  refine and_iff_left_of_imp fun h hok => ?_
  obtain ⟨fields, rfl⟩ := hobject h
  obtain ⟨a, ha, -⟩ := bind_eq_ok.mp hok
  exact ⟨fields, rfl, hshape fields a ha⟩

theorem shape_of_headersFromPayload {fields : List (Str × Json)} {headers : List BlockHeader}
    (h : headersFromPayload (.obj fields) = .ok headers) : FieldsShape .headers fields := by
  simp only [headersFromPayload, get_obj, ok_bind] at h
  cases hheaders : field fields "headers" with
  | arr items =>
    simp only [hheaders, bind_eq_ok, exists_unit, raiseIf_eq_ok, not_lt] at h
    obtain ⟨hlen, headers', hparse, hchain⟩ := h
    have hsame : headers' = headers := by
      simp only [validateHeaderChain, bind_eq_ok, pure_eq_ok] at hchain
      obtain ⟨_, -, rfl⟩ := hchain
      rfl
    exact ⟨items, hheaders, hlen, headers', hparse, hsame ▸ hchain⟩
  | _ =>
    simp only [hheaders] at h
    cases h

/-- A payload is found to have the shape of its type, or is refused with a `NetworkError`, exactly when it is sound. -/
theorem validatePayload_sound_iff (m : PeerMessage) :
    (Raises (ofNetwork ·) m.validatePayload ∧ (m.validatePayload = .ok () → Shaped m)) ↔
      SoundPayload m.messageType m.payload := by
  obtain ⟨messageType, payload, version⟩ := m
  cases messageType with
  | version =>
    exact sound_of_refuses (v := validateVersion) object_of_get validateVersion_raises fun _ => shape_of_validateVersion
  | verack =>
    have hraises : Raises (ofNetwork ·) (validateEmpty payload) := .raiseIf rfl
    refine (and_iff_right hraises).trans ⟨fun h hempty => ?_, fun h hok => ?_⟩
    · obtain ⟨fields, he, -⟩ := h (raiseIf_eq_ok.mpr (Bool.not_eq_true _ ▸ hempty))
      exact ⟨fields, he⟩
    · obtain ⟨fields, rfl⟩ := h (Bool.not_eq_true _ ▸ raiseIf_eq_ok.mp hok)
      exact ⟨fields, rfl, shape_of_validateEmpty hok⟩
  | ping | pong =>
    exact sound_of_refuses (v := validateNonce) object_of_get (fun _ => .raiseIf rfl) fun _ => shape_of_validateNonce
  | inv | getdata => exact sound_inventory
  | getheaders =>
    exact sound_of_refuses (v := validateGetheaders) object_of_get validateGetheaders_raises fun _ => shape_of_validateGetheaders
  | headers =>
    refine (sound_make (f := headersFromPayload) (fun h => ?_) fun _ _ => shape_of_headersFromPayload).trans
      headersFromPayload_raises_iff
    exact (headersFromPayload_raises_iff.mp h).imp fun _ => And.left
  | tx =>
    exact (sound_make (f := transactionFromPayload) transactionFromPayload_raises_iff.mp fun _ _ => binaryPayload_eq_ok).trans
      transactionFromPayload_raises_iff
  | block =>
    exact (sound_make (f := blockFromPayload) blockFromPayload_raises_iff.mp fun _ _ => binaryPayload_eq_ok).trans
      blockFromPayload_raises_iff
  | reject =>
    exact sound_of_refuses (v := validateReject) object_of_get (fun _ => .raiseIf rfl) fun _ => shape_of_validateReject

/-! ## Messages -/

omit [PyText] in
theorem ofValue_raises (value : Str) : Raises (BlockHeader.isMalformed ·) (MessageType.ofValue value) := by
  unfold MessageType.ofValue
  split <;> first | exact .ok _ | exact .error rfl

/-- The version of a message does not overflow, and its payload is sound, where they are looked at. -/
def Sound (fields : List (Str × Json)) : Prop :=
  ∀ value version messageType, fields.lookup "type".toList = some value → MessageType.ofValue value.text = .ok messageType →
    fields.lookup "version".toList = some version → ¬ Overflows version.toInt ∧
      ∀ payload, version.toInt = .ok protocolVersion → fields.lookup "payload".toList = some payload →
        SoundPayload messageType payload

omit [PyText] in
theorem item_eq_ok {fields : List (Str × Json)} {key : String} {value : Json} :
    Json.item (.obj fields) key = .ok value ↔ fields.lookup key.toList = some value := by
  cases h : fields.lookup key.toList with
  | some v =>
    rw [show Json.item (.obj fields) key = .ok v by rw [Json.item, h], Except.ok.injEq, Option.some.injEq]
  | none =>
    rw [show Json.item (.obj fields) key = .error (keyError key) by rw [Json.item, h]]
    exact iff_of_false nofun nofun

theorem readFields_message_raises_iff (fields : List (Str × Json)) :
    Raises (BlockHeader.isMalformed ·) (PeerMessage.readFields (.obj fields)) ↔
      ∀ value, fields.lookup "type".toList = some value → ∀ messageType, MessageType.ofValue value.text = .ok messageType →
        ∀ version, fields.lookup "version".toList = some version → ¬ Overflows version.toInt := by
  simp only [PeerMessage.readFields, Raises.bind_iff, item_eq_ok, iff_true_intro (item_raises _ _), true_and,
    iff_true_intro (ofValue_raises _), raises_malformed_iff (toInt_raises _)]
  refine forall₂_congr fun value _ => forall₂_congr fun messageType _ => and_iff_left_of_imp fun _ _ _ => ?_
  exact fun _ _ => .pure _

theorem readFields_eq_ok {fields : List (Str × Json)} {m : PeerMessage} :
    PeerMessage.readFields (.obj fields) = .ok m ↔
      ∃ value, fields.lookup "type".toList = some value ∧ MessageType.ofValue value.text = .ok m.messageType ∧
        ∃ version, fields.lookup "version".toList = some version ∧ version.toInt = .ok m.version ∧
          fields.lookup "payload".toList = some m.payload := by
  simp only [PeerMessage.readFields, bind_eq_ok, item_eq_ok, pure_eq_ok]
  constructor
  · rintro ⟨value, hvalue, messageType, htype, _, ⟨version, hversion, hint⟩, payload, hpayload, rfl⟩
    exact ⟨value, hvalue, htype, version, hversion, hint, hpayload⟩
  · rintro ⟨value, hvalue, htype, version, hversion, hint, hpayload⟩
    exact ⟨value, hvalue, _, htype, _, ⟨version, hversion, hint⟩, _, hpayload, rfl⟩

omit [PyText] in
theorem oneWay_iff {α : Type} {x : Except PyError α} {S : α → Prop} :
    ((∃ a, x = .ok a ∧ S a) ∨ ∃ text, x = .error (networkError text)) ↔ Raises (ofNetwork ·) x ∧ ∀ a, x = .ok a → S a := by
  cases x with
  | ok a =>
    constructor
    · rintro (⟨a', he, hS⟩ | ⟨text, he⟩)
      · cases he
        exact ⟨.ok a, fun _ ha => by cases ha; exact hS⟩
      · cases he
    · exact fun h => .inl ⟨a, rfl, h.2 a rfl⟩
  | error e =>
    constructor
    · rintro (⟨a', he, -⟩ | ⟨text, he⟩) <;> cases he
      exact ⟨.error rfl, nofun⟩
    · intro h
      have he : ofNetwork e = true := h.1 e rfl
      cases e with
      | networkError text => exact .inr ⟨text, rfl⟩
      | _ => cases he

theorem fromDict_eq_ok {data : Json} {m : PeerMessage} : PeerMessage.fromDict data = .ok m ↔
    PeerMessage.readFields data = .ok m ∧ m.version = protocolVersion ∧ m.validatePayload = .ok () := by
  simp only [PeerMessage.fromDict, bind_eq_ok, catchAs_eq_ok, exists_unit, raiseIf_eq_ok, not_not, pure_eq_ok]
  constructor
  · rintro ⟨_, hread, hversion, hvalid, rfl⟩
    exact ⟨hread, hversion, hvalid⟩
  · rintro ⟨hread, hversion, hvalid⟩
    exact ⟨m, hread, hversion, hvalid, rfl⟩

theorem fromDict_raises_iff {data : Json} : Raises (ofNetwork ·) (PeerMessage.fromDict data) ↔
    Raises (BlockHeader.isMalformed ·) (PeerMessage.readFields data) ∧
      ∀ m, PeerMessage.readFields data = .ok m → m.version = protocolVersion → Raises (ofNetwork ·) m.validatePayload := by
  rw [PeerMessage.fromDict, Raises.bind_iff, catchMalformed_iff]
  refine and_congr_right fun _ => forall_congr' fun m => ?_
  rw [catchAs_eq_ok, Raises.bind_iff, Raises.bind_iff]
  refine imp_congr_right fun _ => ⟨fun h hversion => (h.2 () (raiseIf_eq_ok.mpr (not_not.mpr hversion))).1, fun h => ?_⟩
  exact ⟨.raiseIf rfl, fun _ hversion => ⟨h (not_not.mp (raiseIf_eq_ok.mp hversion)), fun _ _ => .pure _⟩⟩

end

/-- A ping whose payload is a number, a message whose version is infinite and a verack whose payload is an empty list. -/
def unsound : List (List (Str × Json)) :=
  [[("type".toList, .str MessageType.ping.value), ("version".toList, .int 1), ("payload".toList, .int 5)],
    [("type".toList, .str MessageType.ping.value), ("version".toList, .float 0x7ff0000000000000), ("payload".toList, .obj [])],
    [("type".toList, .str MessageType.verack.value), ("version".toList, .int 1), ("payload".toList, .arr [])]]

end BCC.Proof
