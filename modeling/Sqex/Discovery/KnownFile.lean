import Sqex.Discovery.Known
import Sqex.Lib.Lines
import Sqex.Lib.Numerals
import Sqex.Lib.Runs

/-! The pin store's file: a line for each domain, its fields told apart by parsing, keys in base 58
and socket addresses of one family among them, and what comes back of a store that was saved. -/
namespace Sqex.Discovery
variable {c : Char} {e : Entry} {k : Known}

section Texts
open Numerals

def base58 : List Char := "123456789ABCDEFGHJKLMNPQRSTUVWXYZabcdefghijkmnopqrstuvwxyz".toList

def writeKey (key : PubKey) : List Char :=
  List.replicate (32 - (Nat.digits 256 key.toNat).length) '1' ++ write base58 '1' key.toNat

def readKey (cs : List Char) : Option PubKey :=
  (read base58 (cs.dropWhile (· == '1'))).bind fun n =>
    if (cs.takeWhile (· == '1')).length + (Nat.digits 256 n).length = 32 then
      some (BitVec.ofNat 256 n)
    else none

theorem base58_nodup : base58.Nodup := by decide +kernel

theorem base58_length : base58.length = 58 := by decide +kernel

theorem readKey_writeKey (key : PubKey) : readKey (writeKey key) = some key := by
  have hhead : (write base58 '1' key.toNat).head? ≠ some '1' := by
    have hfirst : base58.head? = some '1' := by decide +kernel
    exact hfirst ▸ head?_write base58_nodup (by rw [base58_length]; omega)
  have hwritten : read base58 (write base58 '1' key.toNat) = some key.toNat :=
    read_write base58_nodup (by rw [base58_length]; omega)
  have hbytes : (Nat.digits 256 key.toNat).length ≤ 32 :=
    (Nat.digits_length_le_iff (by omega) _).mpr key.isLt
  have hsplit : ∀ n, (List.replicate n '1' ++ write base58 '1' key.toNat).takeWhile (· == '1') =
        List.replicate n '1' ∧
      (List.replicate n '1' ++ write base58 '1' key.toNat).dropWhile (· == '1') =
        write base58 '1' key.toNat := by
    intro n
    have hones : ∀ c ∈ List.replicate n '1', (c == '1') = true := fun c hc => by
      simp [List.eq_of_mem_replicate hc]
    rw [List.takeWhile_append_of_pos hones, List.dropWhile_append_of_pos hones]
    cases hw : write base58 '1' key.toNat with
    | nil => simp
    | cons c cs =>
      have hc : (c == '1') = false := by simpa [hw] using hhead
      simp [hc]
  obtain ⟨hones, hrest⟩ := hsplit (32 - (Nat.digits 256 key.toNat).length)
  rw [readKey, writeKey, hones, hrest, hwritten, Option.bind_some, List.length_replicate,
    if_pos (by omega), BitVec.ofNat_toNat, BitVec.setWidth_eq]

theorem mem_base58 {key : PubKey} (hc : c ∈ writeKey key) : c ∈ base58 := by
  cases List.mem_append.mp hc with
  | inl hone =>
    rw [List.eq_of_mem_replicate hone]
    decide
  | inr hletter => exact mem_of_mem_write (by rw [base58_length]; omega) hletter

def decimal : List Char := "0123456789".toList

def writeNumber (n : Nat) : List Char := if n = 0 then ['0'] else write decimal '0' n

def readNumber (maxDigits : Option Nat) (zeroFirst : Bool) (bound : Nat) (cs : List Char) :
    Option Nat :=
  if cs = [] ∨ (∃ m ∈ maxDigits, m < cs.length) ∨
      zeroFirst = false ∧ cs.head? = some '0' ∧ 1 < cs.length then none
  else (read decimal cs).filter (· < bound)

theorem decimal_length : decimal.length = 10 := by decide

theorem decimal_nodup : decimal.Nodup := by decide

theorem mem_decimal {n : Nat} (hc : c ∈ writeNumber n) : c ∈ decimal := by
  rw [writeNumber] at hc
  split at hc
  · rw [List.mem_singleton.mp hc]
    decide
  · exact mem_of_mem_write (by rw [decimal_length]; omega) hc

theorem readNumber_writeNumber {maxDigits : Option Nat} {zeroFirst : Bool} {bound n : Nat}
    (hn : n < bound) (hmax : ∀ m ∈ maxDigits, 0 < m ∧ bound ≤ 10 ^ m) :
    readNumber maxDigits zeroFirst bound (writeNumber n) = some n := by
  have hbase : 1 < decimal.length := by rw [decimal_length]; omega
  by_cases hzero : n = 0
  · subst hzero
    have hread : Numerals.read decimal ['0'] = some 0 := by decide +kernel
    have hfits : ∀ m ∈ maxDigits, ¬ m < ['0'].length := fun m hm => by
      have hpos := (hmax m hm).1
      simpa using hpos.ne'
    rw [readNumber, writeNumber, if_pos rfl, if_neg, hread]
    · simp [Option.filter, hn]
    · simp only [not_or, not_exists, not_and]
      exact ⟨by simp, hfits, fun _ _ => by simp⟩
  · have hhead : (write decimal '0' n).head? ≠ some '0' := head?_write decimal_nodup hbase
    have hlength : (write decimal '0' n).length = (Nat.digits 10 n).length := by
      simp [write, decimal_length]
    have hne : write decimal '0' n ≠ [] := by
      intro hnil
      rw [hnil, List.length_nil] at hlength
      exact hzero (Nat.digits_eq_nil_iff_eq_zero.mp (List.length_eq_zero_iff.mp hlength.symm))
    have hfits : ∀ m ∈ maxDigits, ¬ m < (write decimal '0' n).length := fun m hm => by
      have hle := (Nat.digits_length_le_iff (b := 10) (k := m) (by omega) n).mpr
        (hn.trans_le (hmax m hm).2)
      omega
    rw [readNumber, writeNumber, if_neg hzero, if_neg, read_write decimal_nodup hbase]
    · simp [Option.filter, hn]
    · simp only [not_or, not_exists, not_and]
      exact ⟨hne, hfits, fun _ hfirst => absurd hfirst hhead⟩

structure Dotted where
  a : UInt8
  b : UInt8
  c : UInt8
  d : UInt8
  port : UInt16

def Dotted.ip (x : Dotted) : List Char :=
  writeNumber x.a.toNat ++ '.' :: (writeNumber x.b.toNat ++ '.' :: (writeNumber x.c.toNat ++
    '.' :: writeNumber x.d.toNat))

def Dotted.write (x : Dotted) : List Char := x.ip ++ ':' :: writeNumber x.port.toNat

def Dotted.read (cs : List Char) : Option Dotted :=
  match cs.splitOn ':' with
  | [ip, port] => match ip.splitOn '.' with
    | [a, b, c, d] => do
      let a ← readNumber (some 3) false 256 a
      let b ← readNumber (some 3) false 256 b
      let c ← readNumber (some 3) false 256 c
      let d ← readNumber (some 3) false 256 d
      let port ← readNumber none true 65536 port
      some ⟨.ofNat a, .ofNat b, .ofNat c, .ofNat d, .ofNat port⟩
    | _ => none
  | _ => none

theorem splitOn_number {mark : Char} (hmark : mark ∉ decimal) (n : Nat) (cs : List Char) :
    (writeNumber n ++ mark :: cs).splitOn mark = writeNumber n :: cs.splitOn mark := by
  refine List.splitOnP_append_cons_of_forall_mem (fun c hc => ?_) mark (by simp) cs
  simpa using ne_of_mem_of_not_mem (mem_decimal hc) hmark

theorem splitOn_last {mark : Char} (hmark : mark ∉ decimal) (n : Nat) :
    (writeNumber n).splitOn mark = [writeNumber n] := by
  refine List.splitOnP_eq_singleton fun c hc => ?_
  simpa using ne_of_mem_of_not_mem (mem_decimal hc) hmark

theorem mem_ip {x : Dotted} (hc : c ∈ x.ip) : c ∈ decimal ∨ c = '.' := by
  simp only [Dotted.ip, List.mem_append, List.mem_cons] at hc
  obtain ha | rfl | hb | rfl | hb | rfl | hd := hc
  · exact .inl (mem_decimal ha)
  · exact .inr rfl
  · exact .inl (mem_decimal hb)
  · exact .inr rfl
  · exact .inl (mem_decimal hb)
  · exact .inr rfl
  · exact .inl (mem_decimal hd)

theorem Dotted.read_write (x : Dotted) : Dotted.read x.write = some x := by
  have hdot : '.' ∉ decimal := by decide
  have hcolon : ':' ∉ decimal := by decide
  have hip : x.ip.splitOn '.' = [writeNumber x.a.toNat, writeNumber x.b.toNat,
      writeNumber x.c.toNat, writeNumber x.d.toNat] := by
    rw [Dotted.ip, splitOn_number hdot, splitOn_number hdot, splitOn_number hdot, splitOn_last hdot]
  have hwhole : x.write.splitOn ':' = [x.ip, writeNumber x.port.toNat] := by
    rw [← splitOn_last hcolon x.port.toNat]
    refine List.splitOnP_append_cons_of_forall_mem (fun c hc => ?_) ':' (by simp) _
    cases mem_ip hc with
    | inl hdigit => simpa using ne_of_mem_of_not_mem hdigit hcolon
    | inr hmark => simp [hmark]
  have hoctet : ∀ b : UInt8, readNumber (some 3) false 256 (writeNumber b.toNat) = some b.toNat :=
    fun b => readNumber_writeNumber b.toNat_lt (by simp)
  have hport : readNumber none true 65536 (writeNumber x.port.toNat) = some x.port.toNat :=
    readNumber_writeNumber x.port.toNat_lt (by simp)
  simp [Dotted.read, hwhole, hip, hoctet, hport]

theorem mem_write {x : Dotted} (hc : c ∈ x.write) :
    c ∈ decimal ∨ c = '.' ∨ c = ':' := by
  simp only [Dotted.write, List.mem_append, List.mem_cons] at hc
  obtain hip | rfl | hport := hc
  · exact (mem_ip hip).imp id .inl
  · exact .inr (.inr rfl)
  · exact .inl (mem_decimal hport)

end Texts

section Saved
open Runs Lines

def movedField : String := "moved-from="

section
variable (t : Texts) (e : Entry)

def stripPrefix (p s : String) : Option String :=
  if p.toList <+: s.toList then some (String.ofList (s.toList.drop p.toList.length)) else none

theorem stripPrefix_append (p s : String) : stripPrefix p (p ++ s) = some s := by
  simp [stripPrefix]

/-- Keys and socket addresses as they are written and read. -/
structure Texts where
  key : PubKey → String
  parseKey : String → Option PubKey
  Addr : Type
  addr : Addr → String
  parseAddr : String → Option Addr

/-- A field as a reader of the file can find it. -/
structure Plain (s : String) : Prop where
  word : Word isWhite s.toList
  unmarked : '#' ∉ s.toList

instance (s : String) : Decidable (Plain s) :=
  decidable_of_iff (Word isWhite s.toList ∧ '#' ∉ s.toList)
    ⟨fun h => ⟨h.1, h.2⟩, fun h => ⟨h.word, h.unmarked⟩⟩

/-- What is written is read, and stands between blanks. -/
structure Texts.Lawful : Prop where
  parseKey_key : ∀ key, t.parseKey (t.key key) = some key
  plain_key : ∀ key, Plain (t.key key)
  parseAddr_addr : ∀ a, t.parseAddr (t.addr a) = some a
  plain_addr : ∀ a, Plain (t.addr a)
  addr_unmoved : ∀ a, stripPrefix movedField (t.addr a) = none

def Entry.fields : List String :=
  t.key e.key :: (e.host.toList ++ (e.addrs ++
    (e.movedFrom.map fun k => movedField ++ t.key k).toList))

def spaced (s : String) : List Char := ' ' :: ' ' :: s.toList

def Entry.text : List Char :=
  e.domain.toList ++ ((e.fields t).flatMap spaced ++
    (if e.comment = "" then [] else "  # ".toList ++ e.comment.toList))

def knownHeader : List (List Char) :=
  ["# sqex known servers — see SIP-33".toList,
    "# One domain per line. Removing a line forgets its key and the next".toList,
    "# connection is treated as a first contact.".toList]

def Known.save (k : Known) : List Char :=
  (knownHeader ++ k.map (Entry.text t)).flatMap fun l => l ++ ['\n']

structure Fields where
  host : Option String := none
  addrs : List String := []
  movedFrom : Option PubKey := none

/-- A host and addresses are told apart by parsing, and not by where they stand. -/
def Fields.read (f : Fields) (field : String) : Fields :=
  match stripPrefix movedField field with
  | some k => match t.parseKey k with
    | some k => { f with movedFrom := some k }
    | none => f
  | none => match t.parseAddr field with
    | some a => { f with addrs := f.addrs ++ [t.addr a] }
    | none => if f.host = none ∧ f.addrs = [] then { f with host := some field } else f

def readWords (comment : String) : List String → Option Entry
  | domain :: key :: fields => (t.parseKey key).map fun key =>
    let f := fields.foldl (Fields.read t) {}
    { domain, key, host := f.host, addrs := f.addrs, movedFrom := f.movedFrom, comment }
  | _ => none

def readLine (line : List Char) : Option Entry :=
  let line := trim isWhite line
  if line = [] ∨ line.head? = some '#' then none
  else
    let (body, comment) := match splitOnce '#' line with
      | some (b, c) => (trim isWhite b, String.ofList (trim isWhite c))
      | none => (line, "")
    readWords t comment ((words isWhite body).map String.ofList)

def Known.load (text : List Char) : Known :=
  (lines '\n' '\r' text).filterMap (readLine t)

def Entry.kept : Entry := { e with comment := "" }

/-- What is loaded has the domains, keys, hosts, addresses and earlier keys that were saved. -/
def Known.Survives (k : Known) : Prop :=
  (Known.load t (k.save t)).map Entry.kept = k.map Entry.kept

structure Entry.Legible : Prop where
  domain : Plain e.domain
  host : ∀ h ∈ e.host, Plain h ∧ stripPrefix movedField h = none ∧ t.parseAddr h = none

end

instance (t : Texts) (e : Entry) : Decidable (e.Legible t) :=
  decidable_of_iff (Plain e.domain ∧ ∀ h ∈ e.host,
      Plain h ∧ stripPrefix movedField h = none ∧ t.parseAddr h = none)
    ⟨fun h => ⟨h.1, h.2⟩, fun h => ⟨h.domain, h.host⟩⟩

variable {t : Texts}

theorem readWords_kept (comment : String) (ws : List String) :
    (readWords t comment ws).map Entry.kept = readWords t "" ws := by
  unfold readWords
  split
  · rw [Option.map_map]
    rfl
  · rfl

theorem readLine_kept (line : List Char) :
    (readLine t (stripEnd '\r' line)).map Entry.kept =
      readWords t "" ((words isWhite (before '#' line)).map String.ofList) := by
  have hwords : words isWhite (before '#' (trim isWhite (stripEnd '\r' line))) =
      words isWhite (before '#' line) := by
    obtain ⟨ds, hds, hret⟩ := stripEnd_append '\r' line
    have hwhite : ∀ d ∈ ds, isWhite d = true := fun d hd => by rw [hret d hd]; decide
    rw [words_before_trim (by decide), ← words_before_append_white (by decide) hwhite, hds]
  rw [← hwords, readLine]
  generalize trim isWhite (stripEnd '\r' line) = l
  by_cases hskip : l = [] ∨ l.head? = some '#'
  · have hnone : before '#' l = [] := by
      cases l with
      | nil => rfl
      | cons c l =>
        have hc : c = '#' := by simpa using hskip
        simp [before, hc]
    rw [if_pos hskip, hnone]
    rfl
  · rw [if_neg hskip]
    have hbefore := splitOnce_eq '#' l
    cases hsplit : splitOnce '#' l with
    | none =>
      rw [hsplit] at hbefore
      rw [← hbefore]
      exact readWords_kept _ _
    | some p =>
      rw [hsplit] at hbefore
      rw [← hbefore]
      simp only [Option.elim_some, words_trim]
      exact readWords_kept _ _

theorem words_spaced (cs : List Char) (ws : List String) :
    words isWhite (cs ++ ws.flatMap spaced) =
      words isWhite cs ++ ws.flatMap fun w => words isWhite w.toList := by
  induction ws generalizing cs with
  | nil => simp
  | cons w ws ih =>
    have hblank : isWhite ' ' = true := by decide
    rw [List.flatMap_cons, List.flatMap_cons, spaced, List.cons_append, List.cons_append,
      words_append_cons hblank, words_cons hblank, ih]

theorem Plain.words_eq {s : String} (h : Plain s) : words isWhite s.toList = [s.toList] :=
  h.word.words_eq

theorem words_text (hdomain : Plain e.domain) (hfields : ∀ f ∈ e.fields t, Plain f) :
    (words isWhite (before '#' (e.text t))).map String.ofList = e.domain :: e.fields t := by
  have hunmarked : '#' ∉ e.domain.toList ++ (e.fields t).flatMap spaced := by
    simp only [List.mem_append, List.mem_flatMap, not_or, not_exists, not_and]
    refine ⟨hdomain.unmarked, fun f hf => ?_⟩
    simpa [spaced] using (hfields f hf).unmarked
  have htail : ∀ c ∈ before '#' (if e.comment = "" then [] else "  # ".toList ++ e.comment.toList),
      isWhite c = true := by
    split
    · simp [before]
    · have hmark : "  # ".toList = [' ', ' ', '#', ' '] := by decide
      rw [hmark]
      simp [before, show isWhite ' ' = true by decide]
  have hwords : (e.fields t).flatMap (fun f => words isWhite f.toList) =
      (e.fields t).map String.toList := by
    rw [List.map_eq_flatMap]
    exact List.flatMap_congr fun f hf => (hfields f hf).words_eq
  rw [Entry.text, ← List.append_assoc, before_append hunmarked, words_append_white htail,
    words_spaced, hdomain.words_eq, hwords]
  simp

theorem host_read {f : Fields} {field h : String} (hread : (f.read t field).host = some h) :
    f.host = some h ∨ h = field ∧ stripPrefix movedField h = none ∧ t.parseAddr h = none := by
  unfold Fields.read at hread
  split at hread
  · split at hread
    · exact .inl hread
    · exact .inl hread
  · next hunmoved =>
    split at hread
    · exact .inl hread
    · next hnoaddr =>
      split at hread
      · obtain rfl := Option.some.inj hread
        exact .inr ⟨rfl, hunmoved, hnoaddr⟩
      · exact .inl hread

/-- A host that is read is one of the fields, and neither an earlier key nor an address. -/
theorem host_foldl_read {fields : List String} {f : Fields} {h : String}
    (hread : (fields.foldl (Fields.read t) f).host = some h) :
    f.host = some h ∨
      h ∈ fields ∧ stripPrefix movedField h = none ∧ t.parseAddr h = none := by
  induction fields generalizing f with
  | nil => exact .inl hread
  | cons field fields ih =>
    cases ih hread with
    | inl hfirst => exact (host_read hfirst).imp id fun ⟨he, hh⟩ => ⟨by simp [he], hh⟩
    | inr hlater => exact .inr ⟨List.mem_cons_of_mem field hlater.1, hlater.2⟩

theorem legible_of_readWords {ws : List String} (hws : ∀ w ∈ ws, Plain w)
    (h : readWords t "" ws = some e) : e.Legible t := by
  unfold readWords at h
  split at h
  · next domain key fields =>
    obtain ⟨key, hkey, rfl⟩ := Option.map_eq_some_iff.mp h
    refine ⟨hws domain (by simp), fun host hhost => ?_⟩
    cases host_foldl_read hhost with
    | inl hnone => cases hnone
    | inr hread => exact ⟨hws host (by simp [hread.1]), hread.2⟩
  · cases h

theorem addrs_foldl_read (hlaw : t.Lawful) {addrs : List String}
    (haddrs : ∀ a ∈ addrs, ∃ x, t.addr x = a) (f : Fields) :
    addrs.foldl (Fields.read t) f = { f with addrs := f.addrs ++ addrs } := by
  induction addrs generalizing f with
  | nil => simp
  | cons a addrs ih =>
    obtain ⟨x, rfl⟩ := haddrs a (by simp)
    rw [List.foldl_cons, ih fun b hb => haddrs b (by simp [hb])]
    simp [Fields.read, hlaw.addr_unmoved, hlaw.parseAddr_addr]

theorem read_fields (hlaw : t.Lawful) (hlegible : e.Legible t)
    (haddrs : ∀ a ∈ e.addrs, ∃ x, t.addr x = a) :
    readWords t "" (e.domain :: e.fields t) = some e.kept := by
  have hhost : e.host.toList.foldl (Fields.read t) {} = { host := e.host } := by
    cases he : e.host with
    | none => rfl
    | some h =>
      obtain ⟨-, hunmoved, hnoaddr⟩ := hlegible.host h he
      simp [Fields.read, hunmoved, hnoaddr]
  simp only [Entry.fields, readWords, hlaw.parseKey_key, Option.map_some, List.foldl_append, hhost,
    addrs_foldl_read hlaw haddrs]
  cases hmoved : e.movedFrom with
  | none => simp [Entry.kept, hmoved]
  | some k => simp [Entry.kept, hmoved, Fields.read, stripPrefix_append, hlaw.parseKey_key]

/-! What is loaded of what was saved. -/

/-- An entry as the program makes them: in one line, and with addresses that are some. -/
structure Entry.Made (t : Texts) (e : Entry) : Prop where
  domain : '\n' ∉ e.domain.toList
  host : ∀ h ∈ e.host, '\n' ∉ h.toList
  comment : '\n' ∉ e.comment.toList
  addrs : ∀ a ∈ e.addrs, ∃ x, t.addr x = a

theorem Plain.unbroken {s : String} (h : Plain s) : '\n' ∉ s.toList := fun hin => by
  have hwhite := h.word.solid '\n' hin
  revert hwhite
  decide

theorem plain_moved (hlaw : t.Lawful) (key : PubKey) : Plain (movedField ++ t.key key) where
  word := by
    refine ⟨by simp [movedField], fun c hc => ?_⟩
    rw [String.toList_append, List.mem_append] at hc
    have hsolid : (movedField.toList.all fun c => ! isWhite c) = true := by decide
    cases hc with
    | inl hmark => simpa using List.all_eq_true.mp hsolid c hmark
    | inr hkey => exact (hlaw.plain_key key).word.solid c hkey
  unmarked := by
    rw [String.toList_append, List.mem_append, not_or]
    exact ⟨by decide, (hlaw.plain_key key).unmarked⟩

theorem plain_fields (hlaw : t.Lawful) (haddrs : ∀ a ∈ e.addrs, ∃ x, t.addr x = a) {f : String}
    (hf : f ∈ e.fields t) : Plain f ∨ e.host = some f := by
  simp only [Entry.fields, List.mem_cons, List.mem_append, Option.mem_toList,
    Option.map_eq_some_iff] at hf
  obtain rfl | hhost | haddr | ⟨key, -, rfl⟩ := hf
  · exact .inl (hlaw.plain_key e.key)
  · exact .inr hhost
  · obtain ⟨x, rfl⟩ := haddrs f haddr
    exact .inl (hlaw.plain_addr x)
  · exact .inl (plain_moved hlaw key)

theorem text_unbroken (hlaw : t.Lawful) (hmade : e.Made t) : '\n' ∉ e.text t := by
  have hfields : ∀ f ∈ e.fields t, '\n' ∉ f.toList := fun f hf => by
    cases plain_fields hlaw hmade.addrs hf with
    | inl hplain => exact hplain.unbroken
    | inr hhost => exact hmade.host f hhost
  simp only [Entry.text, List.mem_append, List.mem_flatMap, not_or, not_exists, not_and]
  refine ⟨hmade.domain, fun f hf => by simpa [spaced] using hfields f hf, ?_⟩
  split
  · simp
  · rw [List.mem_append, not_or]
    exact ⟨by decide, hmade.comment⟩

theorem lines_flatMap {ls : List (List Char)} (h : ∀ l ∈ ls, '\n' ∉ l) :
    lines '\n' '\r' (ls.flatMap fun l => l ++ ['\n']) = ls.map (stripEnd '\r') := by
  induction ls with
  | nil => exact lines_nil _ _
  | cons l ls ih =>
    rw [List.flatMap_cons, List.append_assoc, List.singleton_append,
      lines_append _ (h l (by simp)), ih fun m hm => h m (by simp [hm]), List.map_cons]

theorem header_skipped : (knownHeader.map (stripEnd '\r')).filterMap (readLine t) = [] := by
  have hmarked : ∀ l ∈ knownHeader.map (stripEnd '\r'), (trim isWhite l).head? = some '#' := by
    decide +kernel
  exact List.filterMap_eq_nil_iff.mpr fun l hl => by rw [readLine, if_pos (.inr (hmarked l hl))]

theorem load_save (hlaw : t.Lawful) (hmade : ∀ e ∈ k, e.Made t) :
    Known.load t (k.save t) = k.filterMap fun e => readLine t (stripEnd '\r' (e.text t)) := by
  have hheader : ∀ l ∈ knownHeader, '\n' ∉ l := by decide +kernel
  have hlines : ∀ l ∈ knownHeader ++ k.map (Entry.text t), '\n' ∉ l := by
    intro l hl
    cases List.mem_append.mp hl with
    | inl hhead => exact hheader l hhead
    | inr hentry =>
      obtain ⟨e, he, rfl⟩ := List.mem_map.mp hentry
      exact text_unbroken hlaw (hmade e he)
  rw [Known.load, Known.save, lines_flatMap hlines, List.map_append, List.filterMap_append,
    header_skipped, List.nil_append, List.filterMap_map, List.filterMap_map]
  rfl

theorem reads_back_iff (hlaw : t.Lawful) (hmade : e.Made t) :
    (readLine t (stripEnd '\r' (e.text t))).map Entry.kept = some e.kept ↔ e.Legible t := by
  rw [readLine_kept]
  constructor
  · intro hread
    have hplain : ∀ w ∈ (words isWhite (before '#' (e.text t))).map String.ofList, Plain w := by
      intro w hw
      obtain ⟨cs, hcs, rfl⟩ := List.mem_map.mp hw
      obtain ⟨hword, hin⟩ := word_of_mem_words hcs
      refine ⟨by simpa using hword, fun hmark => ?_⟩
      rw [String.toList_ofList] at hmark
      exact (mem_before (hin '#' hmark)).2 rfl
    have hlegible := legible_of_readWords hplain hread
    exact ⟨hlegible.domain, hlegible.host⟩
  · intro hlegible
    have hfields : ∀ f ∈ e.fields t, Plain f := fun f hf => by
      cases plain_fields hlaw hmade.addrs hf with
      | inl hplain => exact hplain
      | inr hhost => exact (hlegible.host f hhost).1
    rw [words_text hlegible.domain hfields]
    exact read_fields hlaw hlegible hmade.addrs

theorem survives_iff_legible (hlaw : t.Lawful) (hmade : ∀ e ∈ k, e.Made t) :
    k.Survives t ↔ ∀ e ∈ k, e.Legible t := by
  rw [Known.Survives, load_save hlaw hmade, List.map_filterMap, filterMap_eq_map_iff]
  exact forall₂_congr fun e he => reads_back_iff hlaw (hmade e he)

def maxRemembered : Nat := 4

/-- Remember where a domain answered. The address goes to the front, and the key is as it was. -/
def Known.remember (k : Known) (domain : String) (host : Option String) (addr : String) : Known :=
  match k with
  | [] => []
  | e :: k =>
    if sameDomain e.domain domain then
      { e with
        host := host.or e.host
        addrs := (addr :: e.addrs.filter (· ≠ addr)).take maxRemembered } :: k
    else e :: remember k domain host addr

def Known.others (k : Known) (domain : String) : Known :=
  k.filter fun e => !sameDomain e.domain domain

def Known.remove (k : Known) (domain : String) : Known × Bool :=
  (k.others domain, (k.others domain).length != k.length)

inductive Edit (t : Texts) where
  | added (domain : String) (key : PubKey) (comment : String)
  | moved (domain : String) (fromKey toKey : PubKey) (comment : String)
  | remembered (domain : String) (host : Option String) (addr : t.Addr)
  | removed (domain : String)

def edit (k : Known) : Edit t → Known
  | .added domain key comment => k.add domain key comment
  | .moved domain fromKey toKey comment => k.addMoved domain fromKey toKey comment
  | .remembered domain host addr => k.remember domain host (t.addr addr)
  | .removed domain => (k.remove domain).1

def Edit.Unbroken : Edit t → Prop
  | .added domain _ comment => '\n' ∉ domain.toList ∧ '\n' ∉ comment.toList
  | .moved domain _ _ comment => '\n' ∉ domain.toList ∧ '\n' ∉ comment.toList
  | .remembered _ host _ => ∀ h ∈ host, '\n' ∉ h.toList
  | .removed _ => True

theorem made_remember (hmade : ∀ e ∈ k, e.Made t) (domain : String) {host : Option String}
    (hhost : ∀ h ∈ host, '\n' ∉ h.toList) (x : t.Addr) :
    ∀ e ∈ k.remember domain host (t.addr x), e.Made t := by
  induction k with
  | nil => exact hmade
  | cons e k ih =>
    rw [List.forall_mem_cons] at hmade
    rw [Known.remember]
    split
    · rw [List.forall_mem_cons]
      refine ⟨⟨hmade.1.domain, fun h hh => ?_, hmade.1.comment, fun a ha => ?_⟩, hmade.2⟩
      · cases host with
        | none => exact hmade.1.host h hh
        | some new => exact hhost h hh
      · cases List.mem_cons.mp (List.mem_of_mem_take ha) with
        | inl hself => exact ⟨x, hself.symm⟩
        | inr hold => exact hmade.1.addrs a (List.mem_of_mem_filter hold)
    · rw [List.forall_mem_cons]
      exact ⟨hmade.1, ih hmade.2⟩

theorem made_edit (hmade : ∀ e ∈ k, e.Made t) {i : Edit t} (hi : i.Unbroken) :
    ∀ e ∈ edit k i, e.Made t := by
  have hothers : ∀ domain, ∀ e ∈ k.others domain, e.Made t := fun domain e he =>
    hmade e (List.mem_of_mem_filter he)
  cases i with
  | added domain key comment =>
    intro e he
    rcases mem_concat.mp he with hold | rfl
    · exact hothers domain e hold
    · exact ⟨hi.1, by simp, hi.2, by simp⟩
  | moved domain fromKey toKey comment =>
    intro e he
    rcases mem_concat.mp he with hold | rfl
    · exact hothers domain e hold
    · cases hget : k.get domain with
      | none => exact ⟨hi.1, by simp, hi.2, by simp⟩
      | some held =>
        have hheld := hmade held (List.mem_of_find?_eq_some hget)
        exact ⟨hi.1, hheld.host, hi.2, hheld.addrs⟩
  | remembered domain host addr => exact made_remember hmade domain hi addr
  | removed domain => exact hothers domain

theorem made_run (hmade : ∀ e ∈ k, e.Made t) {edits : List (Edit t)}
    (hedits : ∀ i ∈ edits, i.Unbroken) : ∀ e ∈ run edit k edits, e.Made t := by
  induction edits generalizing k with
  | nil => exact hmade
  | cons i edits ih =>
    rw [List.forall_mem_cons] at hedits
    exact ih (made_edit hmade hedits.1) hedits.2

/-- A store survives its file exactly when every domain in it is a word without the mark of a
comment, and every host one that is read as neither an address nor an earlier key. In any case
no line changes what another is read as. -/
theorem survives_iff (hlaw : t.Lawful) (edits : List (Edit t)) (h : ∀ i ∈ edits, i.Unbroken) :
    Known.load t ((run edit [] edits).save t) =
        (run edit [] edits).filterMap (fun e => readLine t (stripEnd '\r' (e.text t))) ∧
      ((run edit [] edits).Survives t ↔ ∀ e ∈ run edit [] edits, e.Legible t) := by
  have hmade := made_run (t := t) (k := []) (by simp) h
  exact ⟨load_save hlaw hmade, survives_iff_legible hlaw hmade⟩

/-! In base 58, and with addresses of four octets. -/

def Texts.dotted : Texts where
  key key := String.ofList (writeKey key)
  parseKey s := readKey s.toList
  Addr := Dotted
  addr x := String.ofList x.write
  parseAddr s := Dotted.read s.toList

theorem letters_of_all {cs : List Char}
    (hall : (cs.all fun c => ! isWhite c && c != '#') = true) :
    ∀ c ∈ cs, isWhite c = false ∧ c ≠ '#' := by
  simpa only [List.all_eq_true, Bool.and_eq_true, Bool.not_eq_true', bne_iff_ne] using hall

theorem dotted_lawful : Texts.dotted.Lawful where
  parseKey_key key := by
    simp only [Texts.dotted, String.toList_ofList]
    exact readKey_writeKey key
  plain_key key := by
    have hletters : ∀ c ∈ base58, isWhite c = false ∧ c ≠ '#' := letters_of_all (by decide +kernel)
    refine ⟨⟨fun hnil => ?_, fun c hc => ?_⟩, fun hmark => ?_⟩
    · have hread := readKey_writeKey key
      simp only [Texts.dotted, String.toList_ofList] at hnil
      have hnone : readKey [] = none := by decide +kernel
      rw [hnil, hnone] at hread
      cases hread
    · simp only [Texts.dotted, String.toList_ofList] at hc
      exact (hletters c (mem_base58 hc)).1
    · simp only [Texts.dotted, String.toList_ofList] at hmark
      exact (hletters '#' (mem_base58 hmark)).2 rfl
  parseAddr_addr x := by
    simp only [Texts.dotted, String.toList_ofList]
    exact Dotted.read_write x
  plain_addr x := by
    have hletters : ∀ c ∈ decimal ++ ['.', ':'], isWhite c = false ∧ c ≠ '#' :=
      letters_of_all (by decide +kernel)
    have hin : ∀ c ∈ x.write, c ∈ decimal ++ ['.', ':'] := fun c hc => by
      simpa [or_assoc] using mem_write hc
    refine ⟨⟨?_, fun c hc => ?_⟩, fun hmark => ?_⟩
    · simp [Texts.dotted, Dotted.write]
    · simp only [Texts.dotted, String.toList_ofList] at hc
      exact (hletters c (hin c hc)).1
    · simp only [Texts.dotted, String.toList_ofList] at hmark
      exact (hletters '#' (hin '#' hmark)).2 rfl
  addr_unmoved x := by
    have hletter : 'm' ∉ x.write := fun hm => by
      have hother := mem_write hm
      revert hother
      decide
    rw [stripPrefix, if_neg]
    intro hstart
    simp only [Texts.dotted, String.toList_ofList] at hstart
    exact hletter (hstart.subset (by decide))

def tangled : List (Edit .dotted) :=
  [.added "example.com" 7 "discovered",
    .remembered "example.com" (some "192.0.2.7:443") ⟨192, 0, 2, 1, 443⟩]

def blanked : List (Edit .dotted) :=
  [.added ("example.com " ++ String.ofList (writeKey 9)) 7 "discovered"]

theorem tangled_not_read_back :
    ¬ (∀ edits : List (Edit .dotted), (∀ i ∈ edits, i.Unbroken) →
        (run edit [] edits).Survives .dotted) ∧
      (Known.load .dotted ((run edit [] blanked).save .dotted)).lookup "example.com" = some 9 := by
  refine ⟨fun hall => ?_, by decide +kernel⟩
  have hunbroken : ∀ i ∈ tangled, i.Unbroken := by simp [tangled, Edit.Unbroken]
  have hlegible := (survives_iff_legible dotted_lawful (made_run (k := []) (by simp) hunbroken)).mp
    (hall tangled hunbroken)
  have hheld : (run edit [] tangled).map (·.host) = [some "192.0.2.7:443"] := by decide +kernel
  have haddr : (Texts.dotted.parseAddr "192.0.2.7:443").isSome = true := by decide +kernel
  obtain ⟨e, he, hhost⟩ := List.mem_map.mp
    (hheld ▸ List.mem_singleton_self _ : some "192.0.2.7:443" ∈ (run edit [] tangled).map (·.host))
  have hnone := ((hlegible e he).host _ hhost).2.2
  rw [hnone] at haddr
  cases haddr

def wandered : List (Edit .dotted) :=
  [.added "example.com" 7 "discovered # by hand",
    .remembered "example.com" (some "ex.example.com") ⟨192, 0, 2, 1, 443⟩,
    .moved "Example.com" 7 9 "moved", .added "other.example" 8 ""]

theorem wandered_survives : (run edit [] wandered).Survives .dotted :=
  (survives_iff dotted_lawful wandered (by simp [wandered, Edit.Unbroken])).2.mpr
    (by decide +kernel)

end Saved

end Sqex.Discovery
