import Sqex.Chat.Citation

/-! What the answers prove of a citation, and where what a reader makes of them goes beyond
it. -/
namespace Sqex.Citation
variable {more : List Exchanged} {other here : PubKey} {citer : Option (PubKey × UInt64)}
  {depth : Nat}

/-! What each outcome stands on, in what was answered in a hop. -/

def Served (hop : List Exchanged) (account : PubKey) (page : Page) : Prop :=
  ∃ since limit, Exchanged.page account since limit (.body page) ∈ hop

def Listed (hop : List Exchanged) (account : PubKey) (c : Credential) : Prop :=
  ∃ listed, Exchanged.devices account (.body listed) ∈ hop ∧
    ∃ row ∈ listed.devices, row.credential = some c

section
variable (C : Crypto) (held : Credential → Prop) (serial : UInt64) (hop : List Exchanged)
  (account : PubKey)

/-- A device holds a credential of the account that verifies: one that is listed, or one that
is held elsewhere. -/
def Credentialed (device : PubKey) : Prop :=
  ∃ c, (held c ∨ Listed hop account c) ∧ c.delegate = device ∧
    ∃ now, (c.verify C account scopeChat now).isOk = true

structure SignedFor (p : Feed.Post) : Prop where
  own : p.account = account
  signature : p.verify C = true
  body : p.bodyMatches C = true
  device : p.device = account ∨ Credentialed C held hop account p.device

/-- The post a page is read for: the first at the serial whose signature holds. -/
def Page.taken (page : Page) : Option Stored :=
  page.posts.find? fun s => s.post.verify C && s.post.serial = serial

/-- The account's lists as answered do not bear the device out: it is listed under a
credential that does not hold, or they name it neither among the devices nor the revoked. -/
def Disclaimed (device : PubKey) : Prop :=
  ∃ listed, Exchanged.devices account (.body listed) ∈ hop ∧
    ((∃ row c, listed.devices.find? (·.device = device) = some row ∧ row.credential = some c ∧
        ¬ (c.delegate = device ∧ (c.verify C account scopeChat listed.now).isOk = true)) ∨
      ((∀ row ∈ listed.devices, row.device ≠ device) ∧
        ∃ gone, Exchanged.revoked account (.body gone) ∈ hop ∧
          ∀ row ∈ gone.rows, row.holds C account gone.now = true → row.device ≠ device))

/-- Something served contradicts the citation: what is served at the serial is not signed, or
the account's lists do not bear out who signed it. -/
def Contradicted : Prop :=
  ∃ page, Served hop account page ∧
    (((∃ s ∈ page.posts, s.post.serial = serial) ∧
        ∀ s ∈ page.posts, s.post.serial = serial → s.post.verify C = false) ∨
      ∃ s, page.taken C serial = some s ∧ Disclaimed C hop account s.post.device)

def Redaction : Prop :=
  ∃ page s, Served hop account page ∧ s ∈ page.posts ∧ redacts serial s = true ∧
    SignedFor C held hop account s.post

end

def Proved (C : Crypto) (held : Credential → Prop) (serial : UInt64) :
    PubKey → Cited → List (List Exchanged) → Prop
  | account, .got s, hop :: _ => s.post.serial = serial ∧ SignedFor C held hop account s.post
  | account, .withdrawn, hop :: _ => Redaction C held serial hop account
  | account, .forged, hop :: _ => Contradicted C serial hop account
  | account, .succeeded next found, hop :: hops =>
    (∃ got, Exchanged.succession account (.body got) ∈ hop ∧ got.successor = next ∧
      got.proof.account = account ∧ got.proof.proves C next = true) ∧
    Proved C held serial next found hops
  | _, .got _, [] | _, .withdrawn, [] | _, .forged, [] | _, .succeeded _ _, [] => False
  | _, _, _ => True

section
variable (C : Crypto) (held : Credential → Prop) (serial : UInt64) (hop : List Exchanged)
  (account : PubKey)

def Bears (device : PubKey) : Prop :=
  device = account ∨ ∃ listed row c, Exchanged.devices account (.body listed) ∈ hop ∧
    listed.devices.find? (·.device = device) = some row ∧ row.credential = some c ∧
    c.delegate = device ∧ (c.verify C account scopeChat listed.now).isOk = true

def Unlisted (device : PubKey) : Prop :=
  device ≠ account ∧ ∃ listed, Exchanged.devices account (.body listed) ∈ hop ∧
    ∀ row ∈ listed.devices, row.device ≠ device

/-- Forward of the serial a redaction of it is served whose signature holds, whoever's. -/
def Redacted : Prop :=
  ∃ since limit page, Exchanged.page account since limit (.body page) ∈ hop ∧ serial ≤ since ∧
    ∃ s ∈ page.posts, s.post.verify C = true ∧ redacts serial s = true

/-- A page that says it has a serial serves something at it; a post borne out is the account's, with
the body that was signed; the revocations are answered where the list does not have the device; and
of a tombstone's signed redactions one is the account's. -/
structure Straight (page : Page) : Prop where
  row : serial ≤ page.newest → ∃ s ∈ page.posts, s.post.serial = serial
  own : ∀ s, page.taken C serial = some s → s.post.withdrawn = false →
    Bears C hop account s.post.device → s.post.account = account ∧ s.post.bodyMatches C = true
  asked : ∀ s, page.taken C serial = some s → s.post.withdrawn = false →
    Unlisted hop account s.post.device → ∃ gone, Exchanged.revoked account (.body gone) ∈ hop
  redaction : ∀ s, page.taken C serial = some s → s.post.withdrawn = true →
    Redacted C serial hop account → Redaction C held serial hop account

def Candid : Prop :=
  ∀ account page, Exchanged.page account (serial - 1) 1 (.body page) ∈ hop → page.found = true →
    page.oldest ≤ serial → Straight C held serial hop account page

end

section
variable {C : Crypto} {held : Credential → Prop} {x : Exchange} {past hop : List Exchanged}
  {account device : PubKey} {serial newest since : UInt64} {limit : Nat}

theorem redacted_append :
    Redacted C serial (hop ++ more) account ↔
      Redacted C serial hop account ∨ Redacted C serial more account := by
  simp only [Redacted, List.mem_append, or_and_right, exists_or]

/-- A page whose posts are read carries a redaction among them exactly where one is served
that is signed. -/
theorem redacted_pageOf (h : serial ≤ since) :
    Redacted C serial (pageOf C x past account since limit).2 account ↔
      ∃ page, (pageOf C x past account since limit).1 = some page ∧
        page.posts.any (redacts serial) = true := by
  simp only [Redacted, pageOf, List.mem_singleton, Exchanged.page.injEq, true_and]
  cases x.page past account since (max 1 (min limit maxPage)) with
  | body page => simp [h, and_assoc]
  | refused status | noChatHere | failed => simp

/-- What a walk forward of a tombstone comes to: a withdrawal where a signed redaction was
served, and a removal where none was. It reads nothing but pages of the account, from the
serial on. -/
structure Looked (C : Crypto) (account : PubKey) (serial : UInt64)
    (found : Cited × List Exchanged) : Prop where
  told : found.1 = .withdrawn ∧ Redacted C serial found.2 account ∨
    found.1 = .removed ∧ ¬ Redacted C serial found.2 account
  pages : ∀ e ∈ found.2, ∃ since limit reply, e = .page account since limit reply ∧ serial ≤ since

theorem looked_pageOf {cited : Cited} (h : serial ≤ since)
    (htold : cited = .withdrawn ∧ (∃ page, (pageOf C x past account since limit).1 = some page ∧
        page.posts.any (redacts serial) = true) ∨
      cited = .removed ∧ ∀ page, (pageOf C x past account since limit).1 = some page →
        page.posts.any (redacts serial) = false) :
    Looked C account serial (cited, (pageOf C x past account since limit).2) := by
  constructor
  · rw [redacted_pageOf h]
    refine htold.imp id fun ⟨hcited, hnone⟩ => ⟨hcited, fun ⟨page, hpage, hany⟩ => ?_⟩
    simp [hnone page hpage] at hany
  · intro e he
    exact ⟨since, _, _, List.mem_singleton.mp he, h⟩

theorem whoTookItOff_looked (h : serial ≤ since) :
    Looked C account serial (whoTookItOff C x account serial newest past since) := by
  fun_induction whoTookItOff C x account serial newest past since with
  | case1 past since _ want asked hnone =>
    exact looked_pageOf h (.inr ⟨rfl, fun page hpage => by simp [asked, hpage] at hnone⟩)
  | case2 past since _ want asked page hpage hlast =>
    refine looked_pageOf h (.inr ⟨rfl, fun page' hpage' => ?_⟩)
    have heq : page = page' := Option.some.inj (hpage.symm.trans hpage')
    simp [← heq, List.getLast?_eq_none_iff.mp hlast]
  | case3 past since _ want asked page hpage last _ hany =>
    exact looked_pageOf h (.inl ⟨rfl, page, hpage, hany⟩)
  | case4 past since _ want asked page hpage last _ hany =>
    refine looked_pageOf h (.inr ⟨rfl, fun page' hpage' => ?_⟩)
    have heq : page = page' := Option.some.inj (hpage.symm.trans hpage')
    simpa [← heq] using hany
  | case5 past since _ want asked page hpage last _ hany hgo rest ih =>
    have hlast : serial ≤ last.post.serial := by
      simp only [UInt64.le_iff_toNat_le] at h hgo ⊢
      omega
    have hrest := ih hlast
    have hhere : ¬ Redacted C serial asked.2 account := by
      rw [redacted_pageOf h]
      intro ⟨page', hpage', hany'⟩
      have heq : page = page' := Option.some.inj (hpage.symm.trans hpage')
      exact hany (heq ▸ hany')
    constructor
    · simpa only [redacted_append, hhere, false_or] using hrest.told
    · intro e he
      cases List.mem_append.mp he with
      | inl he => exact ⟨since, _, _, List.mem_singleton.mp he, h⟩
      | inr he => exact hrest.pages e he
  | case6 => exact ⟨.inr ⟨rfl, by simp [Redacted]⟩, by simp⟩

/-- It ends within as many pages as posts it looks at. -/
theorem length_whoTookItOff (h : since.toNat < serial.toNat + corroborate) :
    (whoTookItOff C x account serial newest past since).2.length ≤
      serial.toNat + corroborate - since.toNat := by
  fun_induction whoTookItOff C x account serial newest past since with
  | case1 past since | case2 past since | case3 past since | case4 past since =>
    change 1 ≤ serial.toNat + corroborate - since.toNat
    omega
  | case5 past since _ want asked page _ last _ _ hgo rest ih =>
    simp only [UInt64.le_iff_toNat_le] at hgo
    have hasked : asked.2.length = 1 := rfl
    have hrest : rest.2.length ≤ serial.toNat + corroborate - last.post.serial.toNat :=
      ih (by omega)
    rw [List.length_append]
    omega
  | case6 => simp

def BoundSays (C : Crypto) (hop : List Exchanged) (account device : PubKey) : Bound → Prop
  | .yes => Bears C hop account device ∧ ¬ Unlisted hop account device
  | .unprovable => ¬ Bears C hop account device ∧
    (Unlisted hop account device → ∃ gone, Exchanged.revoked account (.body gone) ∈ hop)
  | .no => ¬ Bears C hop account device ∧ (Disclaimed C hop account device ↔
    (Unlisted hop account device → ∃ gone, Exchanged.revoked account (.body gone) ∈ hop))

def Unasked (account : PubKey) (heard : List Exchanged) : Prop :=
  (∀ reply, Exchanged.devices account reply ∉ heard) ∧
    ∀ reply, Exchanged.revoked account reply ∉ heard

theorem account_of_isOk {c : Credential} {now : UInt64}
    (h : (c.verify C account scopeChat now).isOk = true) : c.account = account := by
  by_contra hne
  simp [Credential.verify, hne, Except.isOk, Except.toBool] at h

theorem boundTo_says {heard : List Exchanged} (h : Unasked account heard) :
    BoundSays C (heard ++ (boundTo C x past account device).2) account device
      (boundTo C x past account device).1 := by
  obtain ⟨hdevices, hrevoked⟩ := h
  by_cases hself : device = account
  · simp [boundTo, hself, BoundSays, Bears, Unlisted]
  · cases hreply : x.devices past account with
    | body listed =>
      cases hfind : listed.devices.find? (·.device = device) with
      | none =>
        have hall : ∀ row ∈ listed.devices, ¬ row.device = device := by simpa using hfind
        cases hgone : x.revoked (past ++ [.devices account (.body listed)]) account with
        | body gone =>
          by_cases hany : ∃ row ∈ gone.rows, row.holds C account gone.now = true ∧
              row.device = device
          · simp [boundTo, hself, hreply, hfind, revokedBy, hgone, hany, BoundSays, Bears,
              hdevices]
          · have hnone : ∀ row ∈ gone.rows, row.holds C account gone.now = true →
                ¬ row.device = device := fun row hrow hholds heq => hany ⟨row, hrow, hholds, heq⟩
            simpa [boundTo, hself, hreply, hfind, revokedBy, hgone, hany, BoundSays, Bears,
              Disclaimed, hdevices, hrevoked] using And.intro hall hnone
        | refused status =>
          have hempty : ((revokedBy C x (past ++ [.devices account (.body listed)]) account).1.getD
              []) = [] := by
            by_cases h400 : status = 400 <;> simp [revokedBy, hgone, h400]
          have hasked : (revokedBy C x (past ++ [.devices account (.body listed)]) account).2 =
              [.revoked account (.refused status)] := by rw [revokedBy, hgone]
          simpa [boundTo, hself, hreply, hfind, hempty, hasked, BoundSays, Bears, Disclaimed,
            Unlisted, hdevices, hrevoked] using hall
        | noChatHere =>
          simpa [boundTo, hself, hreply, hfind, revokedBy, hgone, BoundSays, Bears, Disclaimed,
            Unlisted, hdevices, hrevoked] using hall
        | failed =>
          simpa [boundTo, hself, hreply, hfind, revokedBy, hgone, BoundSays, Bears, Disclaimed,
            Unlisted, hdevices, hrevoked] using hall
      | some row =>
        have hlisted : ∃ row ∈ listed.devices, row.device = device :=
          ⟨row, List.mem_of_find?_eq_some hfind, by simpa using List.find?_some hfind⟩
        cases hc : row.credential with
        | none =>
          simp [boundTo, hself, hreply, hfind, hc, BoundSays, Bears, Unlisted, hdevices, hlisted]
        | some c =>
          by_cases hholds : c.delegate = device ∧
              (c.verify C account scopeChat listed.now).isOk = true
          · have haccount : c.account = account := account_of_isOk hholds.2
            simp [boundTo, hself, hreply, hfind, hc, hholds, haccount, BoundSays, Bears, Unlisted,
              hdevices, hlisted]
          · have hno : ¬ (c.delegate = device ∧ c.account = account ∧
                (c.verify C account scopeChat listed.now).isOk = true) :=
              fun h => hholds ⟨h.1, h.2.2⟩
            have hfails : c.delegate = device →
                (c.verify C account scopeChat listed.now).isOk = false := by simpa using hholds
            simpa [boundTo, hself, hreply, hfind, hc, hholds, hno, BoundSays, Bears, Unlisted,
              Disclaimed, hdevices, hlisted] using Or.inl hfails
    | refused status =>
      simp [boundTo, hself, hreply, BoundSays, Bears, Unlisted, hdevices]
    | noChatHere | failed => simp [boundTo, hself, hreply, BoundSays, Bears, Unlisted, hdevices]

theorem boundTo_asks (C : Crypto) (x : Exchange) (past : List Exchanged)
    (account device : PubKey) : (boundTo C x past account device).2 = [] ∨
    (∃ reply, (boundTo C x past account device).2 = [.devices account reply]) ∨
    ∃ reply gone, (boundTo C x past account device).2 =
      [.devices account reply, .revoked account gone] := by
  by_cases hself : device = account
  · simp [boundTo, hself]
  · simp only [boundTo, hself, if_false]
    split
    · split
      · simp [revokedBy]
      · split <;> simp
    · simp

theorem page_notMem_boundTo {reply : Reply Page} :
    Exchanged.page other since limit reply ∉ (boundTo C x past account device).2 := by
  obtain h | ⟨_, h⟩ | ⟨_, _, h⟩ := boundTo_asks C x past account device <;>
    simp [h]

theorem length_boundTo : (boundTo C x past account device).2.length ≤ 2 := by
  obtain h | ⟨_, h⟩ | ⟨_, _, h⟩ := boundTo_asks C x past account device <;>
    simp [h]

/-- What a hop asks first, where the feed is read here. -/
def opened (account : PubKey) (serial : UInt64) (homed : Reply Homed) (page : Page) :
    List Exchanged :=
  [.home account homed, .page account (serial - 1) 1 (.body page)]

def Page.signed (C : Crypto) (page : Page) : Page :=
  { page with posts := page.posts.filter (·.post.verify C) }

@[simp] theorem signed_oldest (page : Page) : (page.signed C).oldest = page.oldest := rfl
@[simp] theorem signed_newest (page : Page) : (page.signed C).newest = page.newest := rfl
@[simp] theorem signed_found (page : Page) : (page.signed C).found = page.found := rfl

theorem find?_signed (page : Page) :
    (page.signed C).posts.find? (·.post.serial = serial) = page.taken C serial := by
  simp [Page.signed, Page.taken, List.find?_filter]

theorem sub_one_lt (h : serial ≠ 0) : ¬ serial ≤ serial - 1 := by
  have hne : serial.toNat ≠ 0 := fun h0 => h (UInt64.toNat_inj.mp h0)
  have hone : (1 : UInt64) ≤ serial := by
    rw [UInt64.le_iff_toNat_le]
    exact Nat.one_le_iff_ne_zero.mpr hne
  rw [UInt64.le_iff_toNat_le, UInt64.toNat_sub_of_le _ _ hone, UInt64.toNat_one]
  omega

variable {homed : Reply Homed} {page : Page} {hops : List (List Exchanged)}

theorem redacted_opened (h : serial ≠ 0) :
    Redacted C serial (opened account serial homed page ++ more) account ↔
      Redacted C serial more account := by
  rw [redacted_append, or_iff_right]
  intro ⟨since, limit, page', hpage, hle, _⟩
  simp only [opened, List.mem_cons, List.not_mem_nil, or_false, reduceCtorEq, false_or,
    Exchanged.page.injEq] at hpage
  exact sub_one_lt h (hpage.2.1 ▸ hle)

theorem Bears.credentialed (h : Bears C hop account device) :
    device = account ∨ Credentialed C held hop account device := by
  refine h.imp id fun ⟨listed, row, c, hlisted, hfind, hc, hdelegate, hholds⟩ => ?_
  exact ⟨c, .inr ⟨listed, hlisted, row, List.mem_of_find?_eq_some hfind, hc⟩, hdelegate,
    listed.now, hholds⟩

theorem missing_iff (htaken : page.taken C serial = none) :
    Contradicted C serial (opened account serial homed page) account ↔
      ∃ s ∈ page.posts, s.post.serial = serial := by
  have hunsigned : ∀ s ∈ page.posts, s.post.serial = serial → s.post.verify C = false := by
    intro s hs hserial
    have hnot := List.find?_eq_none.mp htaken s hs
    simpa [hserial] using hnot
  constructor
  · intro ⟨page', ⟨since, limit, hpage⟩, hcontra⟩
    have heq : page' = page := by
      simp only [opened, List.mem_cons, List.not_mem_nil, or_false, reduceCtorEq, false_or,
        Exchanged.page.injEq, Reply.body.injEq] at hpage
      exact hpage.2.2.2
    rw [heq, htaken] at hcontra
    simpa using hcontra.imp_left And.left
  · intro hrow
    exact ⟨page, ⟨serial - 1, 1, by simp [opened]⟩, .inl ⟨hrow, hunsigned⟩⟩

theorem taken_iff {s : Stored} (htaken : page.taken C serial = some s)
    (hmore : ∀ since limit reply, Exchanged.page account since limit reply ∉ more) :
    Contradicted C serial (opened account serial homed page ++ more) account ↔
      Disclaimed C (opened account serial homed page ++ more) account s.post.device := by
  have htrue : s.post.verify C = true ∧ s.post.serial = serial := by
    simpa using List.find?_some htaken
  constructor
  · intro ⟨page', ⟨since, limit, hpage⟩, hcontra⟩
    have heq : page' = page := by
      simp only [opened, List.cons_append, List.nil_append, List.mem_cons, reduceCtorEq,
        false_or, Exchanged.page.injEq, Reply.body.injEq, hmore, or_false] at hpage
      exact hpage.2.2.2
    rw [heq] at hcontra
    cases hcontra with
    | inl hnone =>
      have hfalse := hnone.2 s (List.mem_of_find?_eq_some htaken) htrue.2
      simp [htrue.1] at hfalse
    | inr hdisclaimed =>
      obtain ⟨s', htaken', hdisclaimed⟩ := hdisclaimed
      rwa [Option.some.inj (htaken.symm.trans htaken')]
  · intro hdisclaimed
    exact ⟨page, ⟨serial - 1, 1, by simp [opened]⟩, .inr ⟨s, htaken, hdisclaimed⟩⟩

theorem straight_iff {s : Stored} (htaken : page.taken C serial = some s) :
    Straight C held serial hop account page ↔
      if s.post.withdrawn then Redacted C serial hop account → Redaction C held serial hop account
      else (Bears C hop account s.post.device →
          s.post.account = account ∧ s.post.bodyMatches C = true) ∧
        (Unlisted hop account s.post.device →
          ∃ gone, Exchanged.revoked account (.body gone) ∈ hop) := by
  have hserial : s.post.serial = serial := by
    have htrue := List.find?_some htaken
    simp only [Bool.and_eq_true, decide_eq_true_eq] at htrue
    exact htrue.2
  have hrow : ∃ s ∈ page.posts, s.post.serial = serial :=
    ⟨s, List.mem_of_find?_eq_some htaken, hserial⟩
  constructor
  · intro h
    cases hgone : s.post.withdrawn with
    | true => simpa using h.redaction s htaken hgone
    | false => simpa using And.intro (h.own s htaken hgone) (h.asked s htaken hgone)
  · intro h
    have heq : ∀ s', page.taken C serial = some s' → s' = s := fun s' htaken' =>
      Option.some.inj (htaken'.symm.trans htaken)
    refine ⟨fun _ => hrow, ?_, ?_, ?_⟩
    all_goals
      intro s' htaken' hgone
      cases heq s' htaken'
      rw [hgone] at h
    · simpa using h.1
    · simpa using h.2
    · simpa using h

/-- A page that knows the feed and reaches back to the serial is answered with what is proved
exactly where it is straight. -/
theorem answerFrom_iff (hserial : serial ≠ 0) (hold : ¬ serial < page.oldest)
    {answer : Cited × List Exchanged}
    (h : answerFrom C x past account serial (page.signed C) = answer) :
    Proved C held serial account answer.1 ((opened account serial homed page ++ answer.2) :: hops)
      ↔ Straight C held serial (opened account serial homed page ++ answer.2) account page := by
  rw [answerFrom, signed_oldest, if_neg hold, find?_signed] at h
  cases htaken : page.taken C serial with
  | none =>
    rw [htaken] at h
    have hstraight : Straight C held serial (opened account serial homed page) account page ↔
        (serial ≤ page.newest → ∃ s ∈ page.posts, s.post.serial = serial) :=
      ⟨fun h => h.row, fun h => ⟨h, by simp [htaken], by simp [htaken], by simp [htaken]⟩⟩
    by_cases hnewest : serial ≤ page.newest
    · simp only [← h, signed_newest, hnewest, if_true, Proved, List.append_nil,
        missing_iff htaken, hstraight, true_implies]
    · simp [← h, hnewest, Proved, hstraight]
  | some s =>
    simp only [htaken] at h
    rw [straight_iff htaken]
    have htrue : s.post.verify C = true ∧ s.post.serial = serial := by
      simpa using List.find?_some htaken
    cases hgone : s.post.withdrawn with
    | true =>
      simp only [hgone, if_true] at h ⊢
      have hlooked : Looked C account serial answer := h ▸ whoTookItOff_looked UInt64.le_rfl
      rw [redacted_opened hserial]
      cases hlooked.told with
      | inl htold | inr htold => simp [htold, Proved]
    | false =>
      simp only [hgone, Bool.false_eq_true, if_false] at h ⊢
      have hunasked : Unasked account (opened account serial homed page) := by
        simp [Unasked, opened]
      have hsays : BoundSays C (opened account serial homed page ++
          (boundTo C x past account s.post.device).2) account s.post.device
          (boundTo C x past account s.post.device).1 := boundTo_says hunasked
      have hmore : ∀ since limit reply, Exchanged.page account since limit reply ∉
          (boundTo C x past account s.post.device).2 := fun _ _ _ => page_notMem_boundTo
      cases hbound : (boundTo C x past account s.post.device).1 with
      | yes =>
        simp only [hbound, BoundSays] at hsays
        simp only [← h, hbound, Proved, htrue.2, true_and]
        constructor
        · intro hsigned
          exact ⟨fun _ => ⟨hsigned.own, hsigned.body⟩, fun hun => absurd hun hsays.2⟩
        · intro hown
          have hown := hown.1 hsays.1
          exact ⟨hown.1, htrue.1, hown.2, hsays.1.credentialed⟩
      | unprovable =>
        simp only [hbound, BoundSays] at hsays
        simp only [← h, hbound, Proved, hsays.1, false_implies, true_and, true_iff]
        exact hsays.2
      | no =>
        simp only [hbound, BoundSays] at hsays
        simp only [← h, hbound, Proved, taken_iff htaken hmore, hsays.1, false_implies, true_and]
        exact hsays.2

theorem page_notMem_answerFrom {reply : Reply Page} (hserial : serial ≠ 0) :
    Exchanged.page other (serial - 1) 1 reply ∉ (answerFrom C x past account serial page).2 := by
  intro hmem
  simp only [answerFrom] at hmem
  split at hmem
  · simp at hmem
  · split at hmem
    · simp at hmem
    · split at hmem
      · obtain ⟨since, limit, reply, heq, hle⟩ :=
          (whoTookItOff_looked UInt64.le_rfl).pages _ hmem
        simp only [Exchanged.page.injEq] at heq
        exact sub_one_lt hserial (heq.2.1 ▸ hle)
      · exact page_notMem_boundTo hmem

theorem length_answerFrom : (answerFrom C x past account serial page).2.length ≤ corroborate := by
  simp only [answerFrom]
  split
  · simp
  · split
    · simp
    · split
      · have hlt : serial.toNat < serial.toNat + corroborate :=
          Nat.lt_add_of_pos_right (by decide)
        exact (length_whoTookItOff hlt).trans (by omega)
      · exact length_boundTo.trans (by decide)

theorem candid_opened (hmore : ∀ other reply, Exchanged.page other (serial - 1) 1 reply ∉ more) :
    Candid C held serial (opened account serial homed page ++ more) ↔
      (page.found = true → page.oldest ≤ serial →
        Straight C held serial (opened account serial homed page ++ more) account page) := by
  simp [Candid, opened, hmore]

theorem pageOf_eq_some (h : (pageOf C x past account since 1).1 = some page) :
    ∃ raw, page = raw.signed C ∧
      (pageOf C x past account since 1).2 = [.page account since 1 (.body raw)] := by
  have hone : max 1 (min 1 maxPage) = 1 := rfl
  simp only [pageOf, hone] at h ⊢
  cases hreply : x.page past account since 1 with
  | body raw => exact ⟨raw, by simpa [hreply, Page.signed] using h.symm, rfl⟩
  | refused status | noChatHere | failed => simp [hreply] at h

theorem pageOf_eq_none {raw : Page} (h : (pageOf C x past account since limit).1 = none) :
    Exchanged.page other since 1 (.body raw) ∉ (pageOf C x past account since limit).2 := by
  intro hmem
  simp only [pageOf, List.mem_singleton, Exchanged.page.injEq] at hmem
  simp [pageOf, ← hmem.2.2.2] at h

theorem successorOf_eq_some {next : PubKey} (h : (successorOf C x past account).1 = some next) :
    ∃ got, Exchanged.succession account (.body got) ∈ (successorOf C x past account).2 ∧
      got.successor = next ∧ got.proof.account = account ∧ got.proof.proves C next = true := by
  cases hreply : x.succession past account with
  | body got =>
    simp only [successorOf, hreply, Option.ite_none_right_eq_some, Option.some.injEq] at h
    obtain ⟨hproof, rfl⟩ := h
    exact ⟨got, by simp [successorOf, hreply], rfl, hproof⟩
  | refused status | noChatHere | failed => simp [successorOf, hreply] at h

/-- A hop that reads a page which knows nothing of the feed says nothing of the post. -/
theorem candid_unfound (h : page.found = false)
    (hmore : ∀ other reply, Exchanged.page other (serial - 1) 1 reply ∉ more) :
    Candid C held serial (opened account serial homed page ++ more) := by
  rw [candid_opened hmore]
  simp [h]

theorem resolveQuoteFrom_iff :
    Proved C held serial account (resolveQuoteFrom C x here serial citer past account depth).1
        (resolveQuoteFrom C x here serial citer past account depth).2 ↔
      ∀ hop ∈ (resolveQuoteFrom C x here serial citer past account depth).2,
        Candid C held serial hop := by
  fun_induction resolveQuoteFrom C x here serial citer past account depth with
  | case1 | case2 | case3 => simp [Proved]
  | case4 past account _ _ _ _ homed heard cited helse =>
    have hcited : ∃ home domain, cited = .elsewhere home domain := by
      cases hhomed : homed with
      | body homed' =>
        simp only [hhomed, elsewhere, Option.ite_none_right_eq_some, Option.some.injEq] at helse
        exact ⟨_, _, helse.2.symm⟩
      | refused status | noChatHere | failed => simp [hhomed, elsewhere] at helse
    obtain ⟨home, domain, rfl⟩ := hcited
    simp [Proved, Candid, heard]
  | case5 past account _ _ _ _ homed heard _ asked heard' hnone =>
    have hno : ∀ other raw, Exchanged.page other (serial - 1) 1 (.body raw) ∉ asked.2 :=
      fun _ _ => pageOf_eq_none hnone
    simp [Proved, Candid, heard', heard, hno]
  | case6 past account _ _ hserial _ homed heard _ asked heard' page hpage hfound answer =>
    obtain ⟨raw, rfl, hasked⟩ := pageOf_eq_some hpage
    have hheard : heard' = opened account serial homed raw := by
      simp only [heard', heard, asked, hasked, opened, List.singleton_append]
    have hmore : ∀ other reply, Exchanged.page other (serial - 1) 1 reply ∉ answer.2 :=
      fun _ _ => page_notMem_answerFrom hserial
    simp only [List.forall_mem_singleton, hheard, candid_opened hmore]
    by_cases hold : serial < raw.oldest
    · simp [answer, answerFrom, hold, Proved, UInt64.not_le.mpr hold]
    · have hanswer : answerFrom C x (past ++ heard') account serial (raw.signed C) = answer := rfl
      rw [answerFrom_iff hserial hold hanswer]
      simp only [show raw.found = true from hfound, UInt64.not_lt.mp hold, true_implies]
  | case7 past account _ _ _ _ homed heard _ asked heard' page hpage hfound next heard'' hnone =>
    obtain ⟨raw, rfl, hasked⟩ := pageOf_eq_some hpage
    have hheard : heard'' = opened account serial homed raw ++ next.2 := by
      simp only [heard'', heard', heard, asked, hasked, opened, List.singleton_append]
    have hcandid : Candid C held serial heard'' :=
      hheard ▸ candid_unfound (by simpa using hfound) (by simp [next, successorOf])
    simp [Proved, hcandid]
  | case8 past account _ _ _ _ homed heard _ asked heard' page hpage hfound next heard'' key hnext
      found ih =>
    obtain ⟨raw, rfl, hasked⟩ := pageOf_eq_some hpage
    have hheard : heard'' = opened account serial homed raw ++ next.2 := by
      simp only [heard'', heard', heard, asked, hasked, opened, List.singleton_append]
    have hcandid : Candid C held serial heard'' :=
      hheard ▸ candid_unfound (by simpa using hfound) (by simp [next, successorOf])
    obtain ⟨got, hgot, hproof⟩ := successorOf_eq_some hnext
    have hsucceeded : ∃ got, Exchanged.succession account (.body got) ∈ heard'' ∧
        got.successor = key ∧ got.proof.account = account ∧ got.proof.proves C key = true :=
      ⟨got, List.mem_append_right _ hgot, hproof⟩
    simp only [Proved, hsucceeded, true_and, List.forall_mem_cons, hcandid]
    exact ih

theorem length_hops :
    (resolveQuoteFrom C x here serial citer past account depth).2.length ≤
      quoteDepth + 1 - depth := by
  fun_induction resolveQuoteFrom C x here serial citer past account depth with
  | case1 | case2 | case3 => simp
  | case4 past account depth hdepth | case5 past account depth hdepth
  | case6 past account depth hdepth | case7 past account depth hdepth =>
    simp only [List.length_singleton]
    omega
  | case8 past account depth hdepth _ _ _ _ _ _ _ _ _ _ _ _ _ _ found ih =>
    have hfound : found.2.length ≤ quoteDepth + 1 - (depth + 1) := ih
    rw [List.length_cons]
    omega

theorem length_hop :
    ∀ hop ∈ (resolveQuoteFrom C x here serial citer past account depth).2,
      hop.length ≤ corroborate + 2 := by
  fun_induction resolveQuoteFrom C x here serial citer past account depth with
  | case1 | case2 | case3 => simp
  | case4 _ _ _ _ _ _ _ heard =>
    have hheard : heard.length = 1 := rfl
    simp [hheard]
  | case5 _ _ _ _ _ _ _ _ _ _ heard =>
    have hheard : heard.length = 2 := rfl
    simp [hheard]
  | case6 _ _ _ _ _ _ _ _ _ _ heard _ _ _ answer =>
    have hheard : heard.length = 2 := rfl
    have hanswer : answer.2.length ≤ corroborate := length_answerFrom
    simp only [List.forall_mem_singleton, List.length_append]
    omega
  | case7 _ _ _ _ _ _ _ _ _ _ _ _ _ _ _ heard =>
    have hheard : heard.length = 3 := rfl
    simp [hheard, corroborate]
  | case8 _ _ _ _ _ _ _ _ _ _ _ _ _ _ _ heard _ _ found ih =>
    have hheard : heard.length = 3 := rfl
    rw [List.forall_mem_cons]
    exact ⟨by simp [hheard, corroborate], ih⟩

end

/-- Whoever composes the answers, a citation ends within the hops it may take, each of so many
requests, and says only what is proved exactly where every page it is read from is answered
straight. -/
theorem citation_says_proved (C : Crypto) (held : Credential → Prop) (x : Exchange)
    (here : PubKey) (serial : UInt64) (citer : Option (PubKey × UInt64))
    (past : List Exchanged) (account : PubKey) (depth : Nat) :
    (resolveQuoteFrom C x here serial citer past account depth).2.length ≤
        quoteDepth + 1 - depth ∧
      (∀ hop ∈ (resolveQuoteFrom C x here serial citer past account depth).2,
        hop.length ≤ corroborate + 2) ∧
      (Proved C held serial account (resolveQuoteFrom C x here serial citer past account depth).1
          (resolveQuoteFrom C x here serial citer past account depth).2 ↔
        ∀ hop ∈ (resolveQuoteFrom C x here serial citer past account depth).2,
          Candid C held serial hop) :=
  ⟨length_hops, length_hop, resolveQuoteFrom_iff⟩

/-! A post taken off, and a stranger's word that its author did. -/

def signedPost (account : PubKey) (seed : Bytes32) (serial : UInt64) (body : Bytes) : Feed.Post :=
  let p : Feed.Post := ⟨account, Crypto.toy.publicKey seed, serial, 0, 0, 0, 0,
    Crypto.toy.sha256 body, body, 0⟩
  { p with signature := Crypto.toy.sign seed (p.inputHashed .toy p.bodyHash) }

def takenOff : Feed.Post := (signedPost 6 5 1 [7]).tombstone
def strangersRedact : Feed.Post := signedPost 6 8 2 (Body.redact 1).encode

def serving : Exchange where
  home _ _ := .failed
  page _ _ since _ :=
    .body ⟨true, 1, 2, 0, [⟨0, if since = 0 then takenOff else strangersRedact⟩]⟩
  devices _ _ := .failed
  revoked _ _ := .failed
  succession _ _ := .failed

theorem strangers_redact_taken : ¬ Proved .toy (fun _ => False) 1 6
    (resolveQuote .toy serving 0 6 1).1 (resolveQuote .toy serving 0 6 1).2 := by
  have hrun : resolveQuote .toy serving 0 6 1 = (.withdrawn, [[.home 6 .failed,
      .page 6 0 1 (.body ⟨true, 1, 2, 0, [⟨0, takenOff⟩]⟩),
      .page 6 1 1 (.body ⟨true, 1, 2, 0, [⟨0, strangersRedact⟩]⟩)]]) := by decide +kernel
  have htombstone : redacts 1 ⟨0, takenOff⟩ = false := by decide +kernel
  have hdevice : strangersRedact.device ≠ 6 := by decide +kernel
  rw [hrun, Proved]
  intro ⟨page, s, ⟨since, limit, hpage⟩, hs, hredacts, hsigned⟩
  simp only [List.mem_cons, reduceCtorEq, Exchanged.page.injEq, Reply.body.injEq, true_and,
    List.not_mem_nil, or_false, false_or] at hpage
  cases hpage with
  | inl htaken =>
    rw [htaken.2.2, List.mem_singleton] at hs
    simp [hs, htombstone] at hredacts
  | inr hredact =>
    rw [hredact.2.2, List.mem_singleton] at hs
    -- no list of devices was asked for
    have hcredential : ¬ Credentialed Crypto.toy (fun _ => False) [.home 6 .failed,
        .page 6 0 1 (.body ⟨true, 1, 2, 0, [⟨0, takenOff⟩]⟩),
        .page 6 1 1 (.body ⟨true, 1, 2, 0, [⟨0, strangersRedact⟩]⟩)] 6 s.post.device := by
      simp [Credentialed, Listed]
    cases hs
    exact hsigned.device.elim hdevice hcredential

end Sqex.Citation
