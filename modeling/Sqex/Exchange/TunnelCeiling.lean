import Sqex.Exchange.Tunnels

/-! The tunnel ceiling over any interleaving of streams: the registry stands for what is
carried as long as no two of a member's tunnels have one number. -/
namespace Sqex.Tunnels
open Std Runs

/-! What the registry's operations leave of a member's entries. -/
namespace Home
variable {h : Home} {tunnels : Registry} {t : Stream} {who : PubKey}

theorem entries_insert (mine : List Open) :
    entries (tunnels.insert t.who mine) who = if t.who = who then mine else entries tunnels who := by
  rw [entries, lookup_insert]
  split <;> rfl

theorem entries_giveBack : entries (giveBack tunnels t) who =
    if t.who = who then (entries tunnels who).filter (·.id ≠ t.id) else entries tunnels who := by
  unfold giveBack
  by_cases hwho : t.who = who
  · subst hwho
    cases hmine : tunnels[t.who]? with
    | none => simp [entries, hmine]
    | some mine =>
      have hentries : entries tunnels t.who = mine := by simp [entries, hmine]
      rw [if_pos rfl, hentries]
      by_cases hempty : (mine.filter (·.id ≠ t.id)).isEmpty = true
      · simp only [hempty, if_true]
        rw [entries, lookup_erase, if_pos rfl, List.isEmpty_iff.mp hempty]
        rfl
      · simp only [hempty, Bool.false_eq_true, if_false]
        rw [entries_insert, if_pos rfl]
  · rw [if_neg hwho]
    cases tunnels[t.who]? with
    | none => rfl
    | some mine =>
      simp only
      split
      · rw [entries, lookup_erase, if_neg hwho]
        rfl
      · rw [entries_insert, if_neg hwho]

theorem entries_note : entries (note tunnels t) who =
    if t.who = who then noteLocal t.id t.localAddr (entries tunnels who)
    else entries tunnels who := by
  unfold note
  by_cases hwho : t.who = who
  · subst hwho
    cases hmine : tunnels[t.who]? with
    | none => simp [entries, hmine, noteLocal]
    | some mine =>
      simp only [entries_insert, if_true]
      simp [entries, hmine]
  · rw [if_neg hwho]
    cases tunnels[t.who]? with
    | none => rfl
    | some mine => simp only [entries_insert, if_neg hwho]

theorem map_id_noteLocal (id : UInt64) (l : SocketAddr) (es : List Open) :
    (noteLocal id l es).map Open.id = es.map Open.id := by
  induction es with
  | nil => rfl
  | cons e es ih =>
    unfold noteLocal
    split
    · rfl
    · simp [ih]

theorem mem_noteLocal {id : UInt64} {l : SocketAddr} {es : List Open}
    (hnodup : (es.map Open.id).Nodup) {e : Open} : e ∈ noteLocal id l es ↔
      (e ∈ es ∧ e.id ≠ id) ∨ ∃ e₀ ∈ es, e₀.id = id ∧ e = { e₀ with localAddr := l } := by
  induction es with
  | nil => simp [noteLocal]
  | cons e' es ih =>
    simp only [List.map_cons, List.nodup_cons, List.mem_map, not_exists, not_and] at hnodup
    unfold noteLocal
    by_cases hid : e'.id = id
    · have hothers : ∀ e ∈ es, e.id ≠ id := fun e he heq => hnodup.1 e he (heq.trans hid.symm)
      rw [if_pos hid]
      simp only [List.mem_cons]
      constructor
      · rintro (rfl | he)
        · exact .inr ⟨e', .inl rfl, hid, rfl⟩
        · exact .inl ⟨.inr he, hothers e he⟩
      · rintro (⟨rfl | he, hne⟩ | ⟨e₀, rfl | he₀, hid₀, rfl⟩)
        · exact absurd hid hne
        · exact .inr he
        · exact .inl rfl
        · exact absurd hid₀ (hothers e₀ he₀)
    · rw [if_neg hid, List.mem_cons, ih hnodup.2]
      simp only [List.mem_cons]
      constructor
      · rintro (rfl | ⟨he, hne⟩ | ⟨e₀, he₀, hid₀, heq⟩)
        · exact .inl ⟨.inl rfl, hid⟩
        · exact .inl ⟨.inr he, hne⟩
        · exact .inr ⟨e₀, .inr he₀, hid₀, heq⟩
      · rintro (⟨rfl | he, hne⟩ | ⟨e₀, rfl | he₀, hid₀, heq⟩)
        · exact .inl rfl
        · exact .inr (.inl ⟨he, hne⟩)
        · exact absurd hid₀ hid
        · exact .inr (.inr ⟨e₀, he₀, hid₀, heq⟩)

/-! What the next thing a task does comes to. -/

inductive Does (h : Home) (tunnels : Registry) (t : Stream) : Event → Registry → Stream → Prop where
  | quiet {e : Event} {t' : Stream} (hholds : t'.stage.holds = t.stage.holds)
      (hentry : t.stage.holds = true → t'.entry = t.entry) : Does h tunnels t e tunnels t'
  | took {t' : Stream} (hstage : t.stage = .allowed) (hholds : t'.stage.holds = true)
      (hroom : (entries tunnels t.who).length < h.limits.perMember) :
      Does h tunnels t .slot (tunnels.insert t.who (entries tunnels t.who ++ [t'.entry])) t'
  | noted {e : Event} {t' : Stream} (hheld : t.stage.holds = true) (hholds : t'.stage.holds = true)
      (hentry : t'.entry = { t.entry with localAddr := t'.localAddr }) :
      Does h tunnels t e (note tunnels t') t'
  | gaveBack {e : Event} {t' : Stream} (hheld : t.stage.holds = true)
      (hholds : t'.stage.holds = false) : Does h tunnels t e (giveBack tunnels t) t'

theorem insert_of_full (hfull : h.limits.perMember ≤ (entries tunnels who).length) :
    tunnels.insert who (entries tunnels who) = tunnels := by
  have hpos := h.limits.pos
  cases hmine : tunnels[who]? with
  | none =>
    simp only [entries, hmine, Option.getD_none, List.length_nil] at hfull
    omega
  | some mine =>
    rw [entries, hmine]
    exact insert_of_lookup hmine

theorem carry_who (e : Event) : (h.carry tunnels t e).2.who = t.who ∧
    (h.carry tunnels t e).2.id = t.id := by
  have hslot : ∀ t', (h.slot tunnels t').2.who = t'.who ∧ (h.slot tunnels t').2.id = t'.id := by
    intro t'
    unfold slot
    split <;> exact ⟨rfl, rfl⟩
  unfold carry
  split <;> (try split) <;> (try split) <;> first | exact ⟨rfl, rfl⟩ | exact hslot _

theorem slot_does (hstage : t.stage = .allowed) (l : SocketAddr) :
    Does h tunnels t .slot (h.slot tunnels { t with localAddr := l }).1
      (h.slot tunnels { t with localAddr := l }).2 := by
  have hfree : t.stage.holds = false := by rw [hstage]; rfl
  unfold slot takeSlot
  by_cases hfull : h.limits.perMember ≤ (entries tunnels t.who).length
  · simp only [if_pos hfull, insert_of_full hfull]
    exact .quiet (by rw [hfree]; rfl) (fun hheld => by simp [hfree] at hheld)
  · simp only [if_neg hfull]
    have htook : ∀ t', t'.stage.holds = true → Does h tunnels t .slot
        (tunnels.insert t.who (entries tunnels t.who ++ [t'.entry])) t' := fun t' hholds =>
      .took hstage hholds (Nat.lt_of_not_le hfull)
    exact htook { t with localAddr := l, stage := .held } rfl

theorem refuse_does (e : Event) (hheld : t.stage.holds = true) (status : UInt8) :
    Does h tunnels t e (refuse tunnels t status).1 (refuse tunnels t status).2 :=
  .gaveBack hheld rfl

theorem carry_does (e : Event) :
    Does h tunnels t e (h.carry tunnels t e).1 (h.carry tunnels t e).2 := by
  have hfree : ∀ t', t.stage.holds = false → t'.stage.holds = false →
      Does h tunnels t e tunnels t' := fun t' hfree hfree' =>
    .quiet (hfree'.trans hfree.symm) fun hheld => by simp [hfree] at hheld
  unfold carry
  split
  · next hstage => exact hfree _ (by rw [hstage]; rfl) rfl
  · next hstage => exact hfree _ (by rw [hstage]; rfl) rfl
  · next hstage => split <;> exact hfree _ (by rw [hstage]; rfl) rfl
  · next hstage => split <;> exact hfree _ (by rw [hstage]; rfl) rfl
  · next hstage => exact slot_does hstage _
  · next hstage =>
    have hheld : t.stage.holds = true := by rw [hstage]; rfl
    split
    · exact refuse_does _ hheld _
    · split
      · exact .quiet hheld.symm fun _ => rfl
      · exact refuse_does _ hheld _
  · next hstage => exact refuse_does _ (by rw [hstage]; rfl) _
  · next hstage =>
    have hheld : t.stage.holds = true := by rw [hstage]; rfl
    split
    · exact .quiet hheld.symm fun _ => rfl
    · exact refuse_does _ hheld _
  · next localAddr hstage =>
    have hnoted : ∀ t', t'.stage.holds = true → t'.entry = { t.entry with localAddr := t'.localAddr } →
        Does h tunnels t (.connect (some localAddr)) (note tunnels t') t' :=
      fun t' hholds hentry => .noted (by rw [hstage]; rfl) hholds hentry
    exact hnoted { t with localAddr, stage := .noted } rfl rfl
  · next hstage => exact refuse_does _ (by rw [hstage]; rfl) _
  · next hstage =>
    have hheld : t.stage.holds = true := by rw [hstage]; rfl
    split
    · exact .quiet hheld.symm fun _ => rfl
    · exact .gaveBack hheld rfl
  · next hstage => exact .gaveBack (by rw [hstage]; rfl) rfl
  · exact .quiet rfl fun _ => rfl

end Home

def Carriers.Holds (s : Carriers) (i : Nat) (t : Stream) : Prop :=
  s.streams[i]? = some t ∧ t.stage.holds = true

/-- A member's tunnels have different numbers, and the registry's entries are theirs. -/
structure Matched (h : Home) (s : Carriers) : Prop where
  distinct : ∀ i j (t u : Stream), s.Holds i t → s.Holds j u → t.who = u.who → t.id = u.id → i = j
  listed : ∀ who e, e ∈ Home.entries s.tunnels who ↔
    ∃ i, ∃ t : Stream, s.Holds i t ∧ t.who = who ∧ t.entry = e
  numbered : ∀ who, ((Home.entries s.tunnels who).map Open.id).Nodup
  ceiling : ∀ who, (Home.entries s.tunnels who).length ≤ h.limits.perMember
  gone : ∀ who : PubKey, s.tunnels[who]? ≠ some []

variable {h : Home} {s : Carriers} {t t' : Stream} {i : Nat} {tunnels : Registry}

theorem matched_none : Matched h .none := by
  have hentries : ∀ who, Home.entries Carriers.none.tunnels who = [] := fun who => by
    simp [Home.entries, Carriers.none]
  have hnone : ∀ i t, ¬ Carriers.none.Holds i t := fun i t => by
    simp [Carriers.Holds, Carriers.none]
  refine ⟨?_, ?_, ?_, ?_, ?_⟩
  · exact fun i j t u ht => absurd ht (hnone i t)
  · simp [hentries, hnone]
  · simp [hentries]
  · simp [hentries]
  · simp [Carriers.none]

theorem holds_set (ht : s.streams[i]? = some t) (tunnels : Registry) (j : Nat) (u : Stream) :
    Carriers.Holds ⟨tunnels, s.streams.set i t'⟩ j u ↔
      (j = i ∧ u = t' ∧ t'.stage.holds = true) ∨ (j ≠ i ∧ s.Holds j u) := by
  have hlt : i < s.streams.length := (List.getElem?_eq_some_iff.mp ht).1
  by_cases hj : i = j
  · subst hj
    simp only [Carriers.Holds, List.getElem?_set_self hlt, Option.some.injEq, true_and, ne_eq,
      not_true_eq_false, false_and, or_false]
    constructor
    · rintro ⟨rfl, hholds⟩
      exact ⟨rfl, hholds⟩
    · rintro ⟨rfl, hholds⟩
      exact ⟨rfl, hholds⟩
  · simp [Carriers.Holds, hj, Ne.symm hj]

/-- A stream whose task neither had a slot nor has one counts for nothing. -/
theorem Matched.idle (hm : Matched h s) (ht : s.streams[i]? = some t)
    (hfree : t.stage.holds = false) (hfree' : t'.stage.holds = false) :
    Matched h ⟨s.tunnels, s.streams.set i t'⟩ := by
  have hsame : ∀ j u, Carriers.Holds ⟨s.tunnels, s.streams.set i t'⟩ j u ↔ s.Holds j u := by
    intro j u
    rw [holds_set ht]
    constructor
    · rintro (⟨-, -, hholds⟩ | ⟨-, hu⟩)
      · simp [hfree'] at hholds
      · exact hu
    · intro hu
      refine .inr ⟨?_, hu⟩
      rintro rfl
      obtain ⟨hu, hholds⟩ := hu
      rw [ht] at hu
      obtain rfl := Option.some.inj hu
      simp [hfree] at hholds
  exact ⟨by simpa only [hsame] using hm.distinct, by simpa only [hsame] using hm.listed,
    hm.numbered, hm.ceiling, hm.gone⟩

theorem Matched.moved (hm : Matched h s) (ht : s.streams[i]? = some t) (hwho : t'.who = t.who)
    (hid : t'.id = t.id)
    (hown : ∀ j u, j ≠ i → s.Holds j u → u.who = t.who → u.id ≠ t.id)
    (hothers : ∀ who, who ≠ t.who → Home.entries tunnels who = Home.entries s.tunnels who)
    (hmine : ∀ e, e ∈ Home.entries tunnels t.who ↔
      (e ∈ Home.entries s.tunnels t.who ∧ e.id ≠ t.id) ∨ (t'.stage.holds = true ∧ e = t'.entry))
    (hnumbered : ((Home.entries tunnels t.who).map Open.id).Nodup)
    (hceiling : (Home.entries tunnels t.who).length ≤ h.limits.perMember)
    (hgone : ∀ who : PubKey, tunnels[who]? ≠ some []) :
    Matched h ⟨tunnels, s.streams.set i t'⟩ := by
  refine ⟨?_, ?_, ?_, ?_, hgone⟩
  · intro j k u v hu hv hsame hnumber
    rw [holds_set ht] at hu hv
    obtain ⟨rfl, rfl, -⟩ | ⟨hj, hu⟩ := hu
    · obtain ⟨rfl, -, -⟩ | ⟨hk, hv⟩ := hv
      · rfl
      · exact absurd (hnumber.symm.trans hid) (hown k v hk hv (hsame.symm.trans hwho))
    · obtain ⟨rfl, rfl, -⟩ | ⟨hk, hv⟩ := hv
      · exact absurd (hnumber.trans hid) (hown j u hj hu (hsame.trans hwho))
      · exact hm.distinct j k u v hu hv hsame hnumber
  · intro who e
    simp only [holds_set ht]
    by_cases hother : who = t.who
    · subst hother
      rw [hmine]
      constructor
      · rintro (⟨he, hne⟩ | ⟨hholds, rfl⟩)
        · obtain ⟨j, u, hu, huwho, rfl⟩ := (hm.listed _ e).mp he
          refine ⟨j, u, .inr ⟨?_, hu⟩, huwho, rfl⟩
          rintro rfl
          have hsame : u = t := Option.some.inj (hu.1.symm.trans ht)
          exact hne (by rw [hsame]; rfl)
        · exact ⟨i, t', .inl ⟨rfl, rfl, hholds⟩, hwho, rfl⟩
      · rintro ⟨j, u, ⟨rfl, rfl, hholds⟩ | ⟨hj, hu⟩, huwho, rfl⟩
        · exact .inr ⟨hholds, rfl⟩
        · exact .inl ⟨(hm.listed _ _).mpr ⟨j, u, hu, huwho, rfl⟩, hown j u hj hu huwho⟩
    · rw [hothers who hother, hm.listed]
      constructor
      · rintro ⟨j, u, hu, rfl, rfl⟩
        refine ⟨j, u, .inr ⟨?_, hu⟩, rfl, rfl⟩
        rintro rfl
        have hsame : u = t := Option.some.inj (hu.1.symm.trans ht)
        exact hother (by rw [hsame])
      · rintro ⟨j, u, ⟨rfl, rfl, -⟩ | ⟨hj, hu⟩, rfl, rfl⟩
        · exact absurd hwho hother
        · exact ⟨j, u, hu, rfl, rfl⟩
  · intro who
    by_cases hother : who = t.who
    · exact hother ▸ hnumbered
    · simpa only [hothers who hother] using hm.numbered who
  · intro who
    by_cases hother : who = t.who
    · exact hother ▸ hceiling
    · simpa only [hothers who hother] using hm.ceiling who

theorem Matched.entry_iff (hm : Matched h s) (ht : s.Holds i t) {e : Open} :
    e ∈ Home.entries s.tunnels t.who ∧ e.id = t.id ↔ e = t.entry := by
  constructor
  · rintro ⟨he, hid⟩
    obtain ⟨j, u, hu, hwho, rfl⟩ := (hm.listed _ e).mp he
    obtain rfl := hm.distinct j i u t hu ht hwho hid
    rw [Option.some.inj (hu.1.symm.trans ht.1)]
  · rintro rfl
    exact ⟨(hm.listed _ _).mpr ⟨i, t, ht, rfl, rfl⟩, rfl⟩

theorem Matched.own (hm : Matched h s) (ht : s.Holds i t) :
    ∀ j (u : Stream), j ≠ i → s.Holds j u → u.who = t.who → u.id ≠ t.id :=
  fun j u hj hu hwho hid => hj (hm.distinct j i u t hu ht hwho hid)

theorem gone_insert {who : PubKey} {mine : List Open}
    (hgone : ∀ who : PubKey, tunnels[who]? ≠ some []) (hmine : mine ≠ []) (who' : PubKey) :
    (tunnels.insert who mine)[who']? ≠ some [] := by
  rw [lookup_insert]
  split
  · simpa using hmine
  · exact hgone who'

theorem gone_giveBack (hgone : ∀ who : PubKey, tunnels[who]? ≠ some []) (t : Stream)
    (who : PubKey) : (Home.giveBack tunnels t)[who]? ≠ some [] := by
  unfold Home.giveBack
  cases tunnels[t.who]? with
  | none => exact hgone who
  | some mine =>
    simp only
    split
    · rw [lookup_erase]
      split
      · simp
      · exact hgone who
    · next hleft => exact gone_insert hgone (by simpa using hleft) who

theorem gone_note (hgone : ∀ who : PubKey, tunnels[who]? ≠ some []) (t : Stream)
    (who : PubKey) : (Home.note tunnels t)[who]? ≠ some [] := by
  unfold Home.note
  cases hmine : tunnels[t.who]? with
  | none => exact hgone who
  | some mine =>
    refine gone_insert hgone ?_ who
    intro hnil
    have hmap := Home.map_id_noteLocal t.id t.localAddr mine
    rw [hnil, List.map_nil, eq_comm, List.map_eq_nil_iff] at hmap
    exact hgone t.who (hmap ▸ hmine)

theorem Matched.does {e : Event} (hm : Matched h s) (ht : s.streams[i]? = some t)
    (hdoes : Home.Does h s.tunnels t e tunnels t') (hwho : t'.who = t.who) (hid : t'.id = t.id)
    (hproper : Proper h s (.run i e)) : Matched h ⟨tunnels, s.streams.set i t'⟩ := by
  cases hdoes with
  | quiet hholds hentry =>
    by_cases hheld : t.stage.holds = true
    · have hslot : s.Holds i t := ⟨ht, hheld⟩
      refine hm.moved ht hwho hid (hm.own hslot) (fun _ _ => rfl) ?_ (hm.numbered _)
        (hm.ceiling _) hm.gone
      intro e
      rw [hholds, hentry hheld, ← hm.entry_iff hslot]
      simp only [hheld, true_and, ← and_or_left]
      exact ⟨fun he => ⟨he, (em _).symm⟩, And.left⟩
    · have hfree : t.stage.holds = false := by simpa using hheld
      exact hm.idle ht hfree (hholds.trans hfree)
  | took hstage hholds hroom =>
    have hfree : ∀ j (u : Stream), j ≠ i → s.Holds j u → u.who = t.who → u.id ≠ t.id := by
      intro j u _ hu huwho
      refine hproper i rfl t ht hstage hroom u
        (List.mem_filter.mpr ⟨List.mem_of_getElem? hu.1, ?_⟩)
      simp [huwho, hu.2]
    have hlisted : ∀ e ∈ Home.entries s.tunnels t.who, e.id ≠ t.id := by
      intro e he
      obtain ⟨j, u, hu, huwho, rfl⟩ := (hm.listed _ e).mp he
      refine hfree j u ?_ hu huwho
      rintro rfl
      have hsame : u = t := Option.some.inj (hu.1.symm.trans ht)
      have hno := hu.2
      rw [hsame, hstage] at hno
      cases hno
    have hentries : ∀ who, Home.entries (s.tunnels.insert t.who
        (Home.entries s.tunnels t.who ++ [t'.entry])) who = _ := fun who => Home.entries_insert _
    refine hm.moved ht hwho hid hfree (fun who hne => by rw [hentries, if_neg (Ne.symm hne)]) ?_ ?_
      ?_ (gone_insert hm.gone (by simp))
    · intro e
      rw [hentries, if_pos rfl, List.mem_append, List.mem_singleton]
      simp only [hholds, true_and]
      exact or_congr_left (iff_self_and.mpr (hlisted e))
    · rw [hentries, if_pos rfl, List.map_append, List.nodup_append]
      refine ⟨hm.numbered _, by simp, ?_⟩
      simp only [List.mem_map, List.map_cons, List.map_nil, List.mem_singleton]
      rintro _ ⟨e, he, rfl⟩ _ rfl
      exact fun heq => hlisted e he (heq.trans hid)
    · rw [hentries, if_pos rfl, List.length_append, List.length_singleton]
      omega
  | noted hheld hholds hentry =>
    have hslot : s.Holds i t := ⟨ht, hheld⟩
    have hentries : ∀ who, Home.entries (Home.note s.tunnels t') who = _ := fun who =>
      Home.entries_note
    refine hm.moved ht hwho hid (hm.own hslot) ?_ ?_ ?_ ?_ (gone_note hm.gone t')
    · exact fun who hne => by rw [hentries, hwho, if_neg (Ne.symm hne)]
    · intro e
      rw [hentries, hwho, if_pos rfl, hid, Home.mem_noteLocal (hm.numbered _)]
      simp only [hholds, true_and, ← and_assoc, hm.entry_iff hslot, exists_eq_left]
      rw [hentry]
    · rw [hentries, hwho, if_pos rfl, Home.map_id_noteLocal]
      exact hm.numbered _
    · have hlength := congrArg List.length
        (Home.map_id_noteLocal t'.id t'.localAddr (Home.entries s.tunnels t.who))
      simp only [List.length_map] at hlength
      rw [hentries, hwho, if_pos rfl, hlength]
      exact hm.ceiling _
  | gaveBack hheld hholds =>
    have hslot : s.Holds i t := ⟨ht, hheld⟩
    have hentries : ∀ who, Home.entries (Home.giveBack s.tunnels t) who = _ := fun who =>
      Home.entries_giveBack
    refine hm.moved ht hwho hid (hm.own hslot) ?_ ?_ ?_ ?_ (gone_giveBack hm.gone t)
    · exact fun who hne => by rw [hentries, if_neg (Ne.symm hne)]
    · intro e
      rw [hentries, if_pos rfl]
      simp [hholds]
    · rw [hentries, if_pos rfl]
      exact (hm.numbered _).sublist (List.filter_sublist.map _)
    · rw [hentries, if_pos rfl]
      exact (List.length_filter_le _ _).trans (hm.ceiling _)

theorem holds_accept {who : PubKey} {conn j : Nat} {id : UInt64} {u : Stream} :
    Carriers.Holds ⟨s.tunnels, s.streams ++ [.fresh who conn id]⟩ j u ↔ s.Holds j u := by
  unfold Carriers.Holds
  by_cases hj : j < s.streams.length
  · simp only [List.getElem?_append_left hj]
  · rw [List.getElem?_append_right (Nat.le_of_not_lt hj),
      List.getElem?_eq_none (Nat.le_of_not_lt hj)]
    constructor
    · rintro ⟨hu, hholds⟩
      have hfresh : u = .fresh who conn id := by simpa using List.mem_of_getElem? hu
      rw [hfresh] at hholds
      cases hholds
    · rintro ⟨hu, -⟩
      cases hu

theorem Matched.step (hm : Matched h s) {input : Input} (hproper : Proper h s input) :
    Matched h (step h s input) := by
  cases input with
  | accept who conn id =>
    simp only [Tunnels.step]
    split
    · exact hm
    · exact ⟨by simpa only [holds_accept] using hm.distinct,
        by simpa only [holds_accept] using hm.listed, hm.numbered, hm.ceiling, hm.gone⟩
  | run i e =>
    simp only [Tunnels.step]
    cases ht : s.streams[i]? with
    | none => exact hm
    | some t =>
      obtain ⟨hwho, hid⟩ : (h.carry s.tunnels t e).2.who = t.who ∧
          (h.carry s.tunnels t e).2.id = t.id := Home.carry_who e
      exact hm.does ht (Home.carry_does e) hwho hid hproper

/-! From what is kept to what is promised. -/

theorem Matched.nodup_carried (hm : Matched h s) (who : PubKey) :
    ((s.carried who).map Stream.id).Nodup := by
  rw [Carriers.carried, List.nodup_iff_pairwise_ne, List.pairwise_map, List.pairwise_filter,
    List.pairwise_iff_getElem]
  intro i j hi hj hlt htholds huholds hid
  simp only [decide_eq_true_eq] at htholds huholds
  have hsame := hm.distinct i j _ _ ⟨List.getElem?_eq_getElem hi, htholds.2⟩
    ⟨List.getElem?_eq_getElem hj, huholds.2⟩ (htholds.1.trans huholds.1.symm) hid
  omega

theorem Matched.listed_perm (hm : Matched h s) (who : PubKey) :
    (Home.entries s.tunnels who).Perm ((s.carried who).map Stream.entry) := by
  have hcarried : ((s.carried who).map Stream.entry).Nodup := by
    have hids : (((s.carried who).map Stream.entry).map Open.id).Nodup := by
      rw [List.map_map]
      exact hm.nodup_carried who
    exact hids.of_map _
  rw [List.perm_ext_iff_of_nodup ((hm.numbered who).of_map _) hcarried]
  intro e
  rw [hm.listed]
  simp only [List.mem_map, Carriers.carried, List.mem_filter, decide_eq_true_eq, Carriers.Holds]
  constructor
  · rintro ⟨i, t, ⟨ht, hholds⟩, hwho, rfl⟩
    exact ⟨t, ⟨List.mem_of_getElem? ht, hwho, hholds⟩, rfl⟩
  · rintro ⟨t, ⟨ht, hwho, hholds⟩, rfl⟩
    obtain ⟨i, hi⟩ := List.getElem?_of_mem ht
    exact ⟨i, t, ⟨hi, hholds⟩, hwho, rfl⟩

theorem Matched.kept (hm : Matched h s) : Kept h s where
  ceiling who := by
    have hlength := (hm.listed_perm who).length_eq
    have hceiling := hm.ceiling who
    rw [List.length_map] at hlength
    omega
  listed := hm.listed_perm
  gone who hnone := by
    have hempty := hm.listed_perm who
    rw [hnone, List.map_nil, List.perm_nil] at hempty
    cases hmine : s.tunnels[who]? with
    | none => rfl
    | some mine =>
      simp only [Home.entries, hmine, Option.getD_some] at hempty
      exact absurd (hempty ▸ hmine) (hm.gone who)

theorem not_kept_of_shared {j : Nat} {u : Stream} (ht : s.Holds i t) (hu : s.Holds j u)
    (hne : j ≠ i) (hwho : u.who = t.who) (hid : u.id = t.id) (hended : t.stage = .carrying) :
    ¬ Kept h (step h s (.run i .ended)) := by
  intro hkept
  have hstep : step h s (.run i .ended) =
      ⟨Home.giveBack s.tunnels t, s.streams.set i { t with stage := .over }⟩ := by
    simp [step, ht.1, Home.carry, hended]
  have hstill : u ∈ (step h s (.run i .ended)).carried t.who := by
    rw [hstep]
    have hholds : Carriers.Holds ⟨Home.giveBack s.tunnels t,
        s.streams.set i { t with stage := .over }⟩ j u := (holds_set ht.1 _ j u).mpr (.inr ⟨hne, hu⟩)
    exact List.mem_filter.mpr ⟨List.mem_of_getElem? hholds.1, by simp [hwho, hu.2]⟩
  have hentry := (hkept.listed t.who).mem_iff.mpr (List.mem_map_of_mem hstill)
  rw [hstep, Home.entries_giveBack, if_pos rfl] at hentry
  simp [hid, Stream.entry] at hentry

/-- Over any interleaving in which no member's tunnels share a number, the registry is what is
carried and the ceiling holds. -/
theorem ceiling_kept (h : Home) (inputs : List Input)
    (hproper : Each (Proper h) (step h) .none inputs) :
    Always (Kept h) (step h) .none inputs := by
  have hkeep : ∀ s input, Matched h s → Proper h s input → Matched h (step h s input) :=
    fun _ _ hm hok => hm.step hok
  exact (hproper.always hkeep matched_none).imp fun _ hm => hm.kept

def narrow : Home := ⟨1, ⟨2, by decide⟩⟩

/-- A stream's task as far as carrying. -/
def opening (i : Nat) : List Input :=
  [.read (some ⟨7, "there"⟩), .membership true, .rate true, .slot,
    .resolved (some (7, ⟨.v4 9, 443⟩)), .bind true, .connect (some ⟨.v4 8, 5000⟩), .told true].map
      (.run i)

theorem ceiling_kept_narrow : Always (Kept narrow) (step narrow) .none
    ([.accept 5 0 0, .accept 5 1 4] ++ opening 0 ++ opening 1 ++ [.run 0 .ended]) :=
  ceiling_kept narrow _ (by decide +kernel)

/-- A member's first stream on each of two connections, and once one has ended, two more. -/
def twice : List Input :=
  [.accept 5 0 0, .accept 5 1 0, .accept 5 0 4, .accept 5 0 8] ++ opening 0 ++ opening 1 ++
    [.run 0 .ended] ++ opening 2 ++ opening 3

theorem ceiling_passed : ¬ Always (Kept narrow) (step narrow) .none twice := by
  intro h
  have hceiling := (always_iff_prefixes.mp h twice List.prefix_rfl).ceiling 5
  revert hceiling
  decide +kernel

end Sqex.Tunnels
