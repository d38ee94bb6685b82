import Sqex.Discovery.Known
import Sqex.Lib.Calls
import Sqex.Lib.Runs

/-! What moves a pin: the word of the key that is pinned, over any resolutions, and whether the
order of the records has a say. -/
namespace Sqex.Discovery
open Runs
variable {offered : List PubKey} {hs : List Handover} {now : UInt64} {pin : Option PubKey}

/-- The decision is the same, but for the order the keys that were refused are told in. -/
def Alike : Option Decision → Option Decision → Prop
  | some (.changed p o), some (.changed p' o') => p = p' ∧ ∀ k, k ∈ o ↔ k ∈ o'
  | d, d' => d = d'

def Offers (texts : List Parsed) (key : PubKey) : Prop := ∃ r, .ours r ∈ texts ∧ r.key = key

/-- One of the handovers published takes the pin from a key to one that is published. -/
def Hands (C : Crypto) (r : Resolution) (texts : List Parsed) (a b : PubKey) : Prop :=
  ∃ h, .handover h ∈ texts ∧ h.verify C r.domain = true ∧ h.fromKey = a ∧ h.toKey = b ∧
    Offers texts b ∧ r.now < h.until_

/-- The pin moves by its own key's word alone, and the order of the records has no say. -/
structure Governed (C : Crypto) (k : Known) (r : Resolution) : Prop where
  keeps : ∀ domain, (k.lookup domain).isSome → ((step C k r).lookup domain).isSome
  moves : ∀ domain a b, k.lookup domain = some a → (step C k r).lookup domain = some b → a ≠ b →
    sameDomain domain r.domain = true ∧ ∃ texts, r.answer = some texts ∧ ¬ Offers texts a ∧
      Hands C r texts a b ∧ ∀ c, Hands C r texts a c → c = b
  orderless : ∀ texts texts', r.answer = some texts → (∀ p, p ∈ texts ↔ p ∈ texts') →
    Alike (decision C k r) (decision C k { r with answer := some texts' })

/-- There is a pin, or there are not two keys to choose from. -/
def Settled (k : Known) (r : Resolution) : Prop :=
  ∀ texts, r.answer = some texts → k.lookup r.domain = none → (∀ why, .broken why ∉ texts) →
    ∀ a b, Offers texts a → Offers texts b → a = b

variable {C : Crypto} {domain : String} {texts texts' : List Parsed} {k : Known} {r : Resolution}

theorem sortOut_ok_iff : (∃ p, sortOut C domain texts = .ok p) ↔ ∀ why, .broken why ∉ texts := by
  induction texts with
  | nil => exact iff_of_true ⟨_, rfl⟩ (by simp)
  | cons t texts ih =>
    cases t with
    | broken why =>
      refine iff_of_false ?_ fun h => h why (by simp)
      rintro ⟨p, hp⟩
      cases hp
    | foreign => simpa [sortOut] using ih
    | ours _ | handover _ =>
      rw [sortOut]
      cases hrest : sortOut C domain texts with
      | error e | ok p => simpa [hrest, Except.map] using ih

theorem sortOut_mem {p : Published} (hp : sortOut C domain texts = .ok p) :
    (∀ r, r ∈ p.records ↔ .ours r ∈ texts) ∧
      ∀ h, h ∈ p.handovers ↔ .handover h ∈ texts ∧ h.verify C domain = true := by
  induction texts generalizing p with
  | nil =>
    obtain rfl := Except.ok.inj hp
    simp
  | cons t texts ih =>
    cases t with
    | broken why => cases hp
    | foreign => simpa using ih hp
    | ours r =>
      obtain ⟨q, hrest, rfl⟩ := map_eq_ok.mp hp
      obtain ⟨hrecords, hhandovers⟩ := ih hrest
      exact ⟨fun r' => by simp [hrecords], fun h => by simp [hhandovers]⟩
    | handover h =>
      obtain ⟨q, hrest, rfl⟩ := map_eq_ok.mp hp
      obtain ⟨hrecords, hhandovers⟩ := ih hrest
      by_cases hverify : h.verify C domain = true
      · rw [if_pos hverify]
        refine ⟨fun r' => by simp [hrecords], fun h' => ?_⟩
        simp only [List.mem_cons, hhandovers, Parsed.handover.injEq]
        constructor
        · rintro (rfl | hold)
          · exact ⟨.inl rfl, hverify⟩
          · exact ⟨.inr hold.1, hold.2⟩
        · rintro ⟨rfl | hold, hv⟩
          · exact .inl rfl
          · exact .inr ⟨hold, hv⟩
      · rw [if_neg hverify]
        refine ⟨fun r' => by simp [hrecords], fun h' => ?_⟩
        simp only [hhandovers, List.mem_cons, Parsed.handover.injEq]
        constructor
        · exact fun hold => ⟨.inr hold.1, hold.2⟩
        · rintro ⟨rfl | hold, hv⟩
          · exact absurd hv hverify
          · exact ⟨hold, hv⟩

theorem mem_offered {p : Published} (hp : sortOut C domain texts = .ok p) (key : PubKey) :
    key ∈ p.offered ↔ Offers texts key := by
  simp only [Published.offered, List.mem_map, Offers, (sortOut_mem hp).1]

theorem destutter'_eq_singleton {α : Type*} [DecidableEq α] (a t : α) (l : List α) :
    l.destutter' (· ≠ ·) a = [t] ↔ a = t ∧ ∀ x ∈ l, x = a := by
  induction l generalizing a with
  | nil => simp
  | cons b l ih =>
    by_cases hab : a = b
    · subst hab
      rw [List.destutter'_cons_neg _ (by simp), ih]
      simp
    · rw [List.destutter'_cons_pos _ hab]
      refine iff_of_false (fun h => ?_) fun h => hab (h.2 b (by simp)).symm
      have htail : l.destutter' (· ≠ ·) b = [] := (List.cons.inj h).2
      exact absurd htail (List.destutter'_ne_nil _ _)

theorem successors_eq_singleton {p t : PubKey} : successors p offered hs now = [t] ↔
      (∃ h ∈ hs, h.carries p offered now = true) ∧
        ∀ h ∈ hs, h.carries p offered now = true → h.toKey = t := by
  unfold successors
  have hmem : ∀ x, x ∈ (hs.filter fun h => h.carries p offered now).map (·.toKey) ↔
      ∃ h ∈ hs, h.carries p offered now = true ∧ h.toKey = x := by
    simp [and_assoc]
  generalize (hs.filter fun h => h.carries p offered now).map (·.toKey) = l at hmem
  cases l with
  | nil =>
    refine iff_of_false (by simp) fun hone => ?_
    obtain ⟨⟨h, hh, hcarries⟩, -⟩ := hone
    exact absurd ((hmem h.toKey).mpr ⟨h, hh, hcarries, rfl⟩) List.not_mem_nil
  | cons a l =>
    rw [List.destutter_cons', destutter'_eq_singleton]
    constructor
    · rintro ⟨rfl, hall⟩
      obtain ⟨h, hh, hcarries, -⟩ := (hmem a).mp (by simp)
      refine ⟨⟨h, hh, hcarries⟩, fun h' hh' hcarries' => ?_⟩
      cases List.mem_cons.mp ((hmem h'.toKey).mpr ⟨h', hh', hcarries', rfl⟩) with
      | inl hhead => exact hhead
      | inr htail => exact hall _ htail
    · rintro ⟨-, hall⟩
      have hto : ∀ x ∈ a :: l, x = t := by
        intro x hx
        obtain ⟨h, hh, hcarries, rfl⟩ := (hmem x).mp hx
        exact hall h hh hcarries
      have ha : a = t := hto a (by simp)
      exact ⟨ha, fun x hx => (hto x (by simp [hx])).trans ha.symm⟩

theorem decide_eq (hsome : offered ≠ []) : Discovery.decide offered pin hs now =
      match pin with
      | none => (offered.head?).map .firstContact
      | some p =>
        if p ∈ offered then some (.pinned p)
        else match successors p offered hs now with
          | [t] => some (.moved p t)
          | _ => some (.changed p offered) := by
  cases offered with
  | nil => exact absurd rfl hsome
  | cons first rest => cases pin <;> rfl

theorem carries_congr {offered' : List PubKey} (h : Handover) (p : PubKey) (now : UInt64)
    (ho : ∀ key, key ∈ offered ↔ key ∈ offered') :
    h.carries p offered now = h.carries p offered' now := by
  have hsame : offered.contains h.toKey = offered'.contains h.toKey := by
    rw [Bool.eq_iff_iff, List.contains_iff_mem, List.contains_iff_mem]
    exact ho h.toKey
  rw [Handover.carries, Handover.carries, hsame]

theorem decide_alike {offered' : List PubKey} {hs' : List Handover}
    (ho : ∀ key, key ∈ offered ↔ key ∈ offered') (hh : ∀ h, h ∈ hs ↔ h ∈ hs')
    (hfirst : pin = none → ∀ a ∈ offered, ∀ b ∈ offered, a = b) :
    Alike (Discovery.decide offered pin hs now) (Discovery.decide offered' pin hs' now) := by
  by_cases hnone : offered = []
  · have hnone' : offered' = [] := List.eq_nil_iff_forall_not_mem.mpr fun key hkey =>
      List.not_mem_nil (hnone ▸ (ho key).mpr hkey)
    rw [hnone, hnone']
    rfl
  have hnone' : offered' ≠ [] := fun heq => hnone <| List.eq_nil_iff_forall_not_mem.mpr
    fun key hkey => List.not_mem_nil (heq ▸ (ho key).mp hkey)
  rw [decide_eq hnone, decide_eq hnone']
  cases pin with
  | none =>
    obtain ⟨a, ha⟩ := List.exists_mem_of_ne_nil _ hnone
    have hhead : ∀ l : List PubKey, l ≠ [] → (∀ b ∈ l, b = a) → l.head? = some a := by
      intro l hl hall
      cases l with
      | nil => exact absurd rfl hl
      | cons b l => rw [List.head?_cons, hall b (by simp)]
    have hleft := hhead offered hnone fun b hb => hfirst rfl b hb a ha
    have hright := hhead offered' hnone' fun b hb => hfirst rfl b ((ho b).mpr hb) a ha
    simp only [hleft, hright]
    rfl
  | some p =>
    simp only
    by_cases hp : p ∈ offered
    · rw [if_pos hp, if_pos ((ho p).mp hp)]
      rfl
    · rw [if_neg hp, if_neg fun hp' => hp ((ho p).mpr hp')]
      have hsame : ∀ t, successors p offered hs now = [t] ↔ successors p offered' hs' now = [t] := by
        intro t
        simp only [successors_eq_singleton, hh, carries_congr _ p now ho]
      split
      · rename_i t ht
        rw [(hsame t).mp ht]
        rfl
      · rename_i hmany
        split
        · rename_i t ht
          exact absurd ((hsame t).mpr ht) (hmany t)
        · exact ⟨rfl, ho⟩

theorem sameDomain_iff {a b : String} :
    sameDomain a b = true ↔ a.toList.map Char.toLower = b.toList.map Char.toLower := by
  simp [sameDomain]

theorem lookup_replaced (k : Known) (e : Entry) (domain : String) :
    Known.lookup (k.filter (fun x => !sameDomain x.domain e.domain) ++ [e]) domain =
      if sameDomain e.domain domain = true then some e.key else k.lookup domain := by
  unfold Known.lookup Known.get
  rw [List.find?_append, List.find?_filter]
  by_cases hsame : sameDomain e.domain domain = true
  · have hnone : k.find? (fun x => !sameDomain x.domain e.domain && sameDomain x.domain domain) =
        none := by
      refine List.find?_eq_none.mpr fun x _ hx => ?_
      simp only [Bool.and_eq_true, Bool.not_eq_true', ← Bool.not_eq_true, sameDomain_iff] at hx
      exact hx.1 (hx.2.trans (sameDomain_iff.mp hsame).symm)
    simp [hnone, hsame]
  · have hfind : k.find? (fun x => !sameDomain x.domain e.domain && sameDomain x.domain domain) =
        k.find? (fun x => sameDomain x.domain domain) := by
      congr 1
      funext x
      cases hx : sameDomain x.domain domain with
      | false => simp
      | true =>
        have hother : sameDomain x.domain e.domain = false := by
          rw [← Bool.not_eq_true]
          intro hxe
          rw [sameDomain_iff] at hsame hx hxe
          exact hsame (hxe.symm.trans hx)
        simp [hother]
    simp [hfind, hsame]

theorem lookup_add (k : Known) (at_ domain : String) (key : PubKey) (comment : String) :
    (k.add at_ key comment).lookup domain =
      if sameDomain at_ domain = true then some key else k.lookup domain :=
  lookup_replaced k ⟨at_, key, none, [], none, comment⟩ domain

theorem lookup_addMoved (k : Known) (at_ domain : String) (a b : PubKey) (comment : String) :
    (k.addMoved at_ a b comment).lookup domain =
      if sameDomain at_ domain = true then some b else k.lookup domain :=
  lookup_replaced k ⟨at_, b, _, _, some a, comment⟩ domain

theorem lookup_congr (k : Known) {a b : String} (h : sameDomain a b = true) :
    k.lookup a = k.lookup b := by
  unfold Known.lookup Known.get
  congr 2
  funext e
  rw [Bool.eq_iff_iff, sameDomain_iff, sameDomain_iff, sameDomain_iff.mp h]

/-- A resolution leaves the store, or pins a domain that had no pin, or moves its pin. -/
theorem step_cases (C : Crypto) (k : Known) (r : Resolution) : step C k r = k ∨
    ∃ p, lookup C r = .ok p ∧
      ((∃ key, Discovery.decide p.offered (k.lookup r.domain) p.handovers r.now =
          some (.firstContact key) ∧ step C k r = k.add r.domain key ("discovered " ++ r.today)) ∨
        ∃ a b, Discovery.decide p.offered (k.lookup r.domain) p.handovers r.now =
          some (.moved a b) ∧ step C k r = k.addMoved r.domain a b
            ("moved " ++ r.today ++ " (SIP-40 handover)")) := by
  unfold step discover
  cases hlookup : lookup C r with
  | error e => exact .inl rfl
  | ok p =>
    cases hdecide : Discovery.decide p.offered (k.lookup r.domain) p.handovers r.now with
    | none => exact .inl (by simp [hdecide])
    | some d =>
      cases d with
      | pinned key | changed pinned offered => exact .inl (by simp [hdecide])
      | firstContact key =>
        cases hsaves : r.saves with
        | false => exact .inl (by simp [hdecide])
        | true => exact .inr ⟨p, rfl, .inl ⟨key, hdecide, by simp [hdecide]⟩⟩
      | moved a b =>
        cases hsaves : r.saves with
        | false => exact .inl (by simp [hdecide])
        | true => exact .inr ⟨p, rfl, .inr ⟨a, b, hdecide, by simp [hdecide]⟩⟩

theorem lookup_ok_iff {p : Published} : lookup C r = .ok p ↔
    ∃ texts, r.answer = some texts ∧ sortOut C r.domain texts = .ok p ∧ p.records ≠ [] := by
  unfold lookup
  cases r.answer with
  | none => simp
  | some texts =>
    cases hsort : sortOut C r.domain texts with
    | error why => simp [hsort]
    | ok q =>
      by_cases hnone : q.records = []
      · simp only [hsort, hnone, if_true, Option.some.injEq, exists_eq_left', Except.ok.injEq]
        refine iff_of_false (by simp) fun h => h.2 (h.1 ▸ hnone)
      · simp only [hsort, hnone, if_false, Option.some.injEq, exists_eq_left', Except.ok.injEq]
        exact ⟨fun h => ⟨h, h ▸ hnone⟩, fun h => h.1⟩

theorem decide_firstContact {key : PubKey}
    (h : Discovery.decide offered pin hs now = some (.firstContact key)) : pin = none := by
  unfold Discovery.decide at h
  split at h
  · cases h
  · split at h
    · rfl
    · split at h
      · cases h
      · split at h <;> cases h

theorem decide_moved {a b : PubKey} (h : Discovery.decide offered pin hs now = some (.moved a b)) :
    pin = some a ∧ a ∉ offered ∧ successors a offered hs now = [b] := by
  unfold Discovery.decide at h
  split at h
  · cases h
  · split at h
    · cases h
    · rename_i p
      split at h
      · cases h
      · rename_i hgone
        split at h
        · rename_i t ht
          simp only [Option.some.injEq, Decision.moved.injEq] at h
          obtain ⟨rfl, rfl⟩ := h
          exact ⟨rfl, hgone, ht⟩
        · cases h

theorem hands_iff {p : Published} (hp : sortOut C r.domain texts = .ok p) (a b : PubKey) :
    Hands C r texts a b ↔ ∃ h ∈ p.handovers, h.carries a p.offered r.now = true ∧ h.toKey = b := by
  simp only [Hands, (sortOut_mem hp).2, Handover.carries, Bool.and_eq_true, beq_iff_eq,
    List.contains_iff_mem, mem_offered hp, decide_eq_true_eq]
  constructor
  · rintro ⟨h, hh, hverify, hfrom, rfl, hoffers, huntil⟩
    exact ⟨h, ⟨hh, hverify⟩, ⟨⟨hfrom, hoffers⟩, huntil⟩, rfl⟩
  · rintro ⟨h, ⟨hh, hverify⟩, ⟨⟨hfrom, hoffers⟩, huntil⟩, rfl⟩
    exact ⟨h, hh, hverify, hfrom, rfl, hoffers, huntil⟩

theorem pin_kept (C : Crypto) (k : Known) (r : Resolution) (domain : String)
    (h : (k.lookup domain).isSome) : ((step C k r).lookup domain).isSome := by
  rcases step_cases C k r with hsame | ⟨p, -, ⟨key, -, hadd⟩ | ⟨a, b, -, hmoved⟩⟩
  · rwa [hsame]
  · rw [hadd, lookup_add]
    split_ifs
    · rfl
    · exact h
  · rw [hmoved, lookup_addMoved]
    split_ifs
    · rfl
    · exact h

/-- A pin that changed was withdrawn, and signed for what it changed to and for nothing else that
is published. -/
theorem pin_moved {a b : PubKey} (ha : k.lookup domain = some a)
    (hb : (step C k r).lookup domain = some b) (hne : a ≠ b) :
    sameDomain domain r.domain = true ∧ ∃ texts, r.answer = some texts ∧ ¬ Offers texts a ∧
      Hands C r texts a b ∧ ∀ c, Hands C r texts a c → c = b := by
  rcases step_cases C k r with hsame | ⟨p, hp, hcase⟩
  · rw [hsame, ha] at hb
    exact absurd (Option.some.inj hb) hne
  obtain ⟨texts, hanswer, hsort, -⟩ := lookup_ok_iff.mp hp
  have hat : ∀ (at_ : String), sameDomain at_ domain = true → at_ = r.domain →
      sameDomain domain r.domain = true := by
    intro at_ hdomain heq
    rw [sameDomain_iff] at hdomain ⊢
    rw [← hdomain, heq]
  rcases hcase with ⟨key, hdecide, hadd⟩ | ⟨x, y, hdecide, hmoved⟩
  · rw [hadd, lookup_add] at hb
    split_ifs at hb with hdomain
    · -- a domain that is pinned is not met for the first time
      have hnone := decide_firstContact hdecide
      rw [lookup_congr k hdomain, ha] at hnone
      cases hnone
    · exact absurd (Option.some.inj (ha.symm.trans hb)) hne
  · rw [hmoved, lookup_addMoved] at hb
    split_ifs at hb with hdomain
    · obtain ⟨hpin, hgone, hsuccessors⟩ := decide_moved hdecide
      rw [lookup_congr k hdomain, ha] at hpin
      obtain rfl := Option.some.inj hpin
      obtain rfl := Option.some.inj hb
      obtain ⟨⟨h, hh, hcarries⟩, hall⟩ := successors_eq_singleton.mp hsuccessors
      refine ⟨hat r.domain hdomain rfl, texts, hanswer, fun hoffers => ?_, ?_, fun c hc => ?_⟩
      · exact hgone ((mem_offered hsort a).mpr hoffers)
      · exact (hands_iff hsort a y).mpr ⟨h, hh, hcarries, hall h hh hcarries⟩
      · obtain ⟨h', hh', hcarries', rfl⟩ := (hands_iff hsort a c).mp hc
        exact hall h' hh' hcarries'
    · exact absurd (Option.some.inj (ha.symm.trans hb)) hne

theorem decision_error (h : ¬ ∃ p, sortOut C r.domain texts = .ok p)
    (hanswer : r.answer = some texts) : decision C k r = none := by
  have hlookup : ∀ p, lookup C r ≠ .ok p := by
    intro p hp
    obtain ⟨texts', hanswer', hsort, -⟩ := lookup_ok_iff.mp hp
    obtain rfl := Option.some.inj (hanswer.symm.trans hanswer')
    exact h ⟨p, hsort⟩
  unfold decision
  split
  · rfl
  · rename_i p hp
    exact absurd hp (hlookup p)

theorem decision_eq {p : Published} (hsort : sortOut C r.domain texts = .ok p)
    (hanswer : r.answer = some texts) :
    decision C k r = Discovery.decide p.offered (k.lookup r.domain) p.handovers r.now := by
  unfold decision lookup
  rw [hanswer]
  simp only [hsort]
  by_cases hnone : p.records = []
  · simp [hnone, Published.offered, Discovery.decide]
  · simp [hnone]

theorem orderless_iff : (∀ texts texts', r.answer = some texts → (∀ p, p ∈ texts ↔ p ∈ texts') →
      Alike (decision C k r) (decision C k { r with answer := some texts' })) ↔ Settled k r := by
  constructor
  · intro h texts hanswer hpin hwhole a b ha hb
    obtain ⟨p, hsort⟩ := sortOut_ok_iff.mpr hwhole
    -- put a record of either key first, and it is the one that is pinned
    have hfirst : ∀ key, Offers texts key →
        Alike (decision C k r) (some (.firstContact key)) := by
      rintro key ⟨record, hrecord, rfl⟩
      have hsame : ∀ t, t ∈ texts ↔ t ∈ Parsed.ours record :: texts := by
        intro t
        rw [List.mem_cons]
        exact ⟨.inr, fun ht => ht.elim (fun heq => heq ▸ hrecord) id⟩
      have halike := h texts (.ours record :: texts) hanswer hsame
      have hnext : sortOut C r.domain (.ours record :: texts) =
          .ok { p with records := record :: p.records } := by
        rw [sortOut, hsort]
        rfl
      rw [decision_eq (r := { r with answer := some (.ours record :: texts) }) hnext rfl] at halike
      simpa [Published.offered, Discovery.decide, hpin] using halike
    have hkey : ∀ key, Offers texts key → decision C k r = some (.firstContact key) := by
      intro key hkey
      have halike := hfirst key hkey
      unfold Alike at halike
      split at halike
      · rename_i heq
        cases heq
      · exact halike
    have heq := (hkey a ha).symm.trans (hkey b hb)
    simpa using heq
  · intro hsettled texts texts' hanswer hsame
    by_cases hwhole : ∀ why, .broken why ∉ texts
    · have hwhole' : ∀ why, .broken why ∉ texts' := fun why hwhy => hwhole why ((hsame _).mpr hwhy)
      have hok : ∃ p, sortOut C r.domain texts = .ok p := sortOut_ok_iff.mpr hwhole
      have hok' : ∃ p, sortOut C r.domain texts' = .ok p := sortOut_ok_iff.mpr hwhole'
      obtain ⟨p, hsort⟩ := hok
      obtain ⟨p', hsort'⟩ := hok'
      rw [decision_eq hsort hanswer, decision_eq (r := { r with answer := some texts' }) hsort' rfl]
      refine decide_alike (fun key => ?_) (fun h => ?_) fun hpin a ha b hb => ?_
      · simp only [mem_offered hsort, mem_offered hsort', Offers, hsame]
      · rw [(sortOut_mem hsort).2, (sortOut_mem hsort').2, hsame]
      · exact hsettled texts hanswer hpin hwhole a b ((mem_offered hsort a).mp ha)
          ((mem_offered hsort b).mp hb)
    · have hnone : ¬ ∃ p, sortOut C r.domain texts = .ok p := fun hok =>
        hwhole (sortOut_ok_iff.mp hok)
      have hnone' : ¬ ∃ p, sortOut C r.domain texts' = .ok p := fun hok =>
        hwhole fun why hwhy => sortOut_ok_iff.mp hok why ((hsame _).mp hwhy)
      rw [decision_error hnone hanswer,
        decision_error (r := { r with answer := some texts' }) hnone' rfl]
      rfl

theorem governed_iff : Governed C k r ↔ Settled k r :=
  ⟨fun h => orderless_iff.mp h.orderless,
    fun h => ⟨pin_kept C k r, fun _ _ _ => pin_moved, orderless_iff.mpr h⟩⟩

theorem pin_handed {a : PubKey} (rs : List Resolution) (ha : k.lookup domain = some a) :
    ∃ b, (run (step C) k rs).lookup domain = some b ∧ Relation.ReflTransGen
      (fun x y => ∃ r ∈ rs, ∃ texts, sameDomain domain r.domain = true ∧ r.answer = some texts ∧
        ¬ Offers texts x ∧ Hands C r texts x y) a b := by
  induction rs generalizing k a with
  | nil => exact ⟨a, ha, .refl⟩
  | cons r rs ih =>
    have hkept := pin_kept C k r domain (by rw [ha]; rfl)
    obtain ⟨c, hc⟩ := Option.isSome_iff_exists.mp hkept
    obtain ⟨b, hb, hrest⟩ := ih hc
    have hlift : Relation.ReflTransGen (fun x y => ∃ r' ∈ r :: rs, ∃ texts,
        sameDomain domain r'.domain = true ∧ r'.answer = some texts ∧ ¬ Offers texts x ∧
          Hands C r' texts x y) c b := by
      refine hrest.lift id fun x y hxy => ?_
      obtain ⟨r', hr', hword⟩ := hxy
      exact ⟨r', List.mem_cons_of_mem r hr', hword⟩
    refine ⟨b, hb, ?_⟩
    by_cases hne : a = c
    · exact hne ▸ hlift
    · obtain ⟨hdomain, texts, hanswer, hgone, hhands, -⟩ := pin_moved ha hc hne
      exact .head ⟨r, by simp, texts, hdomain, hanswer, hgone, hhands⟩ hlift

/-- A key's word for the one after it, at a domain. -/
def word : Handover where
  fromKey := Crypto.toy.publicKey 1
  toKey := 7
  until_ := 100
  sig := Crypto.toy.sign 1 (Handover.signingInput "a" (Crypto.toy.publicKey 1) 7 100)
  moves := by decide

/-- The pin is handed over, and stays while a key nobody vouches for is published. -/
theorem pin_handed_over :
    let rs : List Resolution :=
      [⟨"A", some [.foreign, .ours ⟨7, none, 443⟩, .handover word], 50, "2026-08-31", true⟩,
        ⟨"b", some [.ours ⟨8, none, 443⟩], 60, "2026-08-31", true⟩,
        ⟨"a", some [.ours ⟨9, none, 443⟩, .handover word], 70, "2026-09-01", true⟩]
    let k : Known := [⟨"a", word.fromKey, none, [], none, ""⟩]
    (run (step .toy) k rs).lookup "a" = some 7 ∧
      ∃ b, (run (step .toy) k rs).lookup "a" = some b ∧
        Relation.ReflTransGen (fun x y => ∃ r ∈ rs, ∃ texts, sameDomain "a" r.domain = true ∧
          r.answer = some texts ∧ ¬ Offers texts x ∧ Hands .toy r texts x y) word.fromKey b :=
  ⟨by decide +kernel, pin_handed _ (by decide +kernel)⟩

theorem pins_governed (C : Crypto) (k : Known) (rs : List Resolution) :
    Each (Governed C) (step C) k rs ↔ Each Settled (step C) k rs := by
  have hsame : Governed C = Settled := by
    funext k r
    exact propext governed_iff
  rw [hsame]

/-- A domain met for the first time, with two keys published. -/
def newcomer : Resolution where
  domain := "example.com"
  answer := some [.ours ⟨1, none, 443⟩, .ours ⟨2, none, 443⟩]
  now := 0
  today := "2026-08-31"
  saves := true

theorem first_key_wins : ¬ Governed .toy [] newcomer := by
  intro h
  have halike := h.orderless _ [.ours ⟨2, none, 443⟩, .ours ⟨1, none, 443⟩] rfl (by simp [or_comm])
  simp [decision, lookup, newcomer, sortOut, Except.map, Published.offered, Discovery.decide,
    Known.lookup, Known.get, Alike] at halike

end Sqex.Discovery
