import Sqex.Chat.Verdict

/-! Whether the receipt on an entry covers what its device signed and what is shown of it. -/
namespace Sqex.Chat

section
variable (C : Crypto)

section
variable (v : Sight) (e : Entry)

def receiptedAt (stamp : Receipted) (key : PubKey) : Bool :=
  (receiptTerms v key e stamp).verify C stamp.receipt &&
    (e.kind != kindMember || servedHash C v key e == stamp.entryHash)

def receiptedUnder : Option PubKey :=
  e.stamp.bind fun stamp => v.keys.find? (receiptedAt C v e stamp)

def signedInput (place : Place) : Bytes :=
  if e.body = [] then (e.terms place).inputHashed C e.bodyHash else (e.terms place).input C

def OneContent : Prop :=
  (e.body = [] ∨ e.bodyHash = C.sha256 e.body) ∧
    ∃ stamp key, e.stamp = some stamp ∧ receiptedUnder C v e = some key ∧
      C.checks e.device (signedInput C e (v.place key)) e.sig = true ∧
      stamp.entryHash = link C (signedInput C e (v.place key))

def Faithful : Prop :=
  (e.body = [] ∨ e.bodyHash = C.sha256 e.body) ∧
    ∀ stamp ∈ e.stamp, ∀ key ∈ receiptedUnder C v e,
      (e.kind = kindMember ∨ stamp.entryHash = servedHash C v key e) ∧
        signedAt C e (v.place key) = true

/-- As `Faithful`, but for the key: nothing is said of what the device's signature is for. -/
def Covered : Prop :=
  (e.body = [] ∨ e.bodyHash = C.sha256 e.body) ∧
    ∀ stamp ∈ e.stamp, ∀ key ∈ receiptedUnder C v e,
      e.kind = kindMember ∨ stamp.entryHash = servedHash C v key e

/-- The key the signature was found under is the key the receipt is under. -/
def KeysMeet : Prop :=
  ∀ key ∈ receiptedUnder C v e, ∀ place ∈ signedUnder C v e, place = v.place key

end

variable {C} {v : Sight} {e : Entry} {held : Option Bytes32} {key : PubKey}

theorem standingFor_repudiated {stamp : Receipted} (hstamp : e.stamp = some stamp) :
    standingFor C v key e held = .repudiated ↔ receiptedAt C v e stamp key = false := by
  simp only [standingFor, hstamp, receiptedAt]
  by_cases hverify : (receiptTerms v key e stamp).verify C stamp.receipt = false
  · simp [hverify]
  · by_cases hhash : e.kind = kindMember ∧ servedHash C v key e ≠ stamp.entryHash
    · simp [hverify, hhash]
    · have hkept : (e.kind != kindMember || servedHash C v key e == stamp.entryHash) = true := by
        simp only [Bool.or_eq_true, bne_iff_ne, beq_iff_eq]
        tauto
      rw [if_neg hverify, if_neg hhash, hkept, Bool.and_true]
      refine iff_of_false ?_ hverify
      cases held with
      | none => simp
      | some prev => simp only; split <;> simp

theorem standingFrom_receipted {stamp : Receipted} (hstamp : e.stamp = some stamp)
    {keys : List PubKey} {last : Sqex.Standing} (hlast : last = .unclaimed ∨ last = .repudiated)
    (h : standingFrom C v e held keys last = .vouched ∨
      standingFrom C v e held keys last = .unlinked) :
    ∃ key, keys.find? (receiptedAt C v e stamp) = some key := by
  induction keys generalizing last with
  | nil =>
    rw [standingFrom] at h
    rcases hlast with rfl | rfl <;> simp at h
  | cons key keys ih =>
    rw [standingFrom] at h
    rw [List.find?_cons]
    cases hat : receiptedAt C v e stamp key with
    | true => exact ⟨key, rfl⟩
    | false =>
      have hrep := (@standingFor_repudiated C v e held key stamp hstamp).mpr hat
      simp only [hrep, if_true] at h
      exact ih (Or.inr rfl) h

theorem receiptedUnder_of_standing
    (h : standingUnder C v e held = .vouched ∨ standingUnder C v e held = .unlinked) :
    ∃ stamp key, e.stamp = some stamp ∧ receiptedUnder C v e = some key := by
  cases hstamp : e.stamp with
  | none =>
    have hnone : ∀ keys, standingFrom C v e held keys .unclaimed = .unclaimed := by
      intro keys
      induction keys with
      | nil => rfl
      | cons key keys ih => simp [standingFrom, standingFor, hstamp]
    rw [standingUnder, hnone] at h
    simp at h
  | some stamp =>
    obtain ⟨key, hkey⟩ := standingFrom_receipted hstamp (Or.inl rfl) h
    exact ⟨stamp, key, rfl, by rw [receiptedUnder, hstamp]; exact hkey⟩

theorem signedInput_served (hbody : e.body = [] ∨ e.bodyHash = C.sha256 e.body) (place : Place) :
    signedInput C e place = (e.terms place).inputHashed C e.bodyHash := by
  unfold signedInput
  split
  · rfl
  · rename_i hne
    rw [EntryTerms.input, Entry.terms, hbody.resolve_left hne]

theorem signedAt_iff (hbody : e.body = [] ∨ e.bodyHash = C.sha256 e.body) (place : Place) :
    signedAt C e place = C.checks e.device (signedInput C e place) e.sig := by
  rw [signedInput_served hbody]
  unfold signedAt
  split
  · rfl
  · rename_i hwhole
    have hhash : e.bodyHash = C.sha256 e.body := by
      rcases hbody with hempty | hhash
      · rw [hempty]
        exact not_not.mp fun hne => hwhole ⟨hempty, hne⟩
      · exact hhash
    rw [verifyEntry, EntryTerms.input, Entry.terms, hhash]

theorem faithful_of_covered {bound : Bindings} {chains : Chains}
    (hvalid : (verdictFor C v bound e chains).1 = .valid) (hkind : e.kind ≠ kindSystem)
    (hkeys : KeysMeet C v e) : Faithful C v e ↔ Covered C v e := by
  refine ⟨fun ⟨hbody, hserved⟩ => ⟨hbody, fun stamp hstamp key hkey =>
    (hserved stamp hstamp key hkey).1⟩, fun ⟨hbody, hserved⟩ => ⟨hbody, fun stamp hstamp key hkey =>
      ⟨hserved stamp hstamp key hkey, ?_⟩⟩⟩
  cases hsigned : signedUnder C v e with
  | none => simp [verdictFor, hkind, hsigned] at hvalid
  | some place =>
    have hat := List.find?_some hsigned
    rwa [hkeys key hkey place hsigned] at hat

/-- An entry taken as its device's and its exchange's is one content exactly when it is served
faithfully: where the key it was found signed under is the key of its receipt, when its hashes are
those of what is served. -/
theorem one_content_iff (C : Crypto) (v : Sight) (e : Entry) (held : Option Bytes32)
    (bound : Bindings) (chains : Chains) (hvalid : (verdictFor C v bound e chains).1 = .valid)
    (hstands : standingUnder C v e held = .vouched ∨ standingUnder C v e held = .unlinked) :
    (OneContent C v e ↔ Faithful C v e) ∧
      (e.kind ≠ kindSystem → KeysMeet C v e → (OneContent C v e ↔ Covered C v e)) := by
  suffices hiff : OneContent C v e ↔ Faithful C v e from
    ⟨hiff, fun hkind hkeys => hiff.trans (faithful_of_covered hvalid hkind hkeys)⟩
  obtain ⟨stamp, key, hstamp, hkey⟩ := receiptedUnder_of_standing hstands
  have hmember : e.kind = kindMember → stamp.entryHash = servedHash C v key e := by
    intro hkind
    have hfound : v.keys.find? (receiptedAt C v e stamp) = some key := by
      rwa [receiptedUnder, hstamp] at hkey
    have hat := List.find?_some hfound
    simp only [receiptedAt, Bool.and_eq_true, Bool.or_eq_true, bne_iff_ne, beq_iff_eq] at hat
    exact (hat.2.resolve_left fun hne => hne hkind).symm
  constructor
  · intro ⟨hbody, stamp', key', hstamp', hkey', hchecks, hhash⟩
    refine ⟨hbody, fun s hs k hk => ?_⟩
    obtain rfl : stamp' = s := Option.some.inj (hstamp'.symm.trans hs)
    obtain rfl : key' = k := Option.some.inj (hkey'.symm.trans hk)
    rw [signedAt_iff hbody]
    rw [signedInput_served hbody] at hhash
    exact ⟨Or.inr hhash, hchecks⟩
  · intro ⟨hbody, hserved⟩
    obtain ⟨hkind, hsigned⟩ := hserved stamp hstamp key hkey
    rw [signedAt_iff hbody] at hsigned
    refine ⟨hbody, stamp, key, hstamp, hkey, hsigned, ?_⟩
    rw [signedInput_served hbody]
    exact hkind.elim hmember id

end

/-- A post of a device, receipted by the exchange of seed 8. `bodyHash` is the hash served
with it. -/
def postShown (bodyHash : Bytes32) : Entry :=
  let e : Entry := {
    seq := 1, kind := kindMember, account := 4, device := 4, posted := 9, expiresAfter := 0,
    epoch := 0, msgSeq := 1, chainSeq := 0, prev := genesis, bodyHash := bodyHash, sig := 0,
    stamp := none, body := [5] }
  let place : Place := ⟨9, 1, 2⟩
  let entryHash := link Crypto.toy ((e.terms place).inputHashed Crypto.toy bodyHash)
  let terms : ReceiptTerms := ⟨place, 1, 9, entryHash, advance Crypto.toy headGenesis entryHash⟩
  { e with
    sig := Crypto.toy.sign 3 ((e.terms place).input Crypto.toy)
    stamp := some ⟨entryHash, terms.head, Crypto.toy.sign 8 (terms.input Crypto.toy)⟩ }

def sightShown : Sight := ⟨[9], 2, 1⟩

theorem one_content_shown :
    let e := postShown (Crypto.toy.sha256 [5])
    (verdictFor Crypto.toy sightShown (fun _ => none) e fun _ => none).1 = .valid ∧
      standingUnder Crypto.toy sightShown e (some headGenesis) = .vouched ∧
      OneContent Crypto.toy sightShown e := by
  let e := postShown (Crypto.toy.sha256 [5])
  have hvalid : (verdictFor Crypto.toy sightShown (fun _ => none) e fun _ => none).1 = .valid := by
    decide +kernel
  have hvouched : standingUnder Crypto.toy sightShown e (some headGenesis) = .vouched := by
    decide +kernel
  have hkeys : KeysMeet Crypto.toy sightShown e := fun key hkey place hplace => by
    have hreceipted : receiptedUnder Crypto.toy sightShown e = some 9 := by decide +kernel
    have hsigned : signedUnder Crypto.toy sightShown e = some (sightShown.place 9) := by
      decide +kernel
    obtain rfl := Option.some.inj (hreceipted.symm.trans hkey)
    exact Option.some.inj (hplace.symm.trans hsigned)
  refine ⟨hvalid, hvouched, ((one_content_iff _ _ _ _ _ _ hvalid (Or.inl hvouched)).2
    (by decide) hkeys).mpr ⟨.inr rfl, fun _ _ _ _ => .inl rfl⟩⟩

/-- The hash served with the body is not the body's, and the receipt covers it. -/
theorem another_content : ¬ ∀ (C : Crypto) (v : Sight) (e : Entry) (held : Option Bytes32)
    (bound : Bindings) (chains : Chains), (verdictFor C v bound e chains).1 = .valid →
    (standingUnder C v e held = .vouched ∨ standingUnder C v e held = .unlinked) →
    OneContent C v e := by
  intro h
  have hbody := (h Crypto.toy sightShown (postShown 0) (some headGenesis) (fun _ => none)
    (fun _ => none) (by decide +kernel) (Or.inl (by decide +kernel))).1
  exact absurd hbody (by decide +kernel)

end Sqex.Chat
