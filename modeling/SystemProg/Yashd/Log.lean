import SystemProg.Yashd.Input
import SystemProg.Shell.Parse
import Mathlib.Tactic.IntervalCases

/-!
# The audit log

Model of `log_command` (`server/src/log.c:28-57`) with the peer identity it prints
(`server/src/transport.c:81-99`). An entry is formatted into `entry[YASH_MAX_LINE + 128]` and
written whole; what does not fit is cut off, its newline first.

* `Peer` is a `peer_t` as `transport_accept` fills it, `Tm` a `struct tm` as `localtime_r` does.
* `strftime` is in the C locale.

Headlines: `logCommand_eq` says that the entry of a line `parse_line` accepts is never cut off, and
`identity_entry`, `commandText_entry` that its peer and its command can be read off it.
-/

namespace SystemProg.Yashd

open Text Shell List

/-! ## Numbers -/

/-- `%d` of a number that is not negative. -/
def decimal (n : Nat) : List Byte := str (toString n)

theorem decimal_eq (n : Nat) : decimal n = (Nat.toDigits 10 n).map fun c => c.toNat.toUInt8 := by
  rw [decimal, str, Nat.toString_eq_ofList_toDigits, String.toList_ofList]

theorem isDigit_toUInt8 {c : Char} (h : c.isDigit = true) :
    48 ≤ c.toNat.toUInt8 ∧ c.toNat.toUInt8 ≤ 57 ∧ Char.ofNat c.toNat.toUInt8.toNat = c := by
  have hrange : 48 ≤ c.toNat ∧ c.toNat ≤ 57 := by
    simpa [Char.isDigit, UInt32.le_iff_toNat_le] using h
  rw [← Char.ofNat_toNat c]
  generalize c.toNat = n at hrange ⊢
  obtain ⟨hlo, hhi⟩ := hrange
  interval_cases n <;> decide

theorem mem_decimal {b : Byte} {n : Nat} (h : b ∈ decimal n) : 48 ≤ b ∧ b ≤ 57 := by
  rw [decimal_eq] at h
  obtain ⟨c, hc, rfl⟩ := mem_map.mp h
  have := isDigit_toUInt8 (Nat.isDigit_of_mem_toDigits (by decide) (by decide) hc)
  exact ⟨this.1, this.2.1⟩

theorem decimal_injective {m n : Nat} (h : decimal m = decimal n) : m = n := by
  have hback : ∀ k, (decimal k).map (fun b => Char.ofNat b.toNat) = Nat.toDigits 10 k := by
    intro k
    rw [decimal_eq, map_map]
    refine (map_congr_left fun c hc => ?_).trans (map_id _)
    exact (isDigit_toUInt8 (Nat.isDigit_of_mem_toDigits (by decide) (by decide) hc)).2.2
  have := (hback m).symm.trans ((congrArg _ h).trans (hback n))
  calc m = Nat.ofDigitChars 10 (Nat.toDigits 10 m) 0 := Nat.ofDigitChars_ten_toDigits.symm
    _ = Nat.ofDigitChars 10 (Nat.toDigits 10 n) 0 := by rw [this]
    _ = n := Nat.ofDigitChars_ten_toDigits

theorem length_decimal_le {n k : Nat} (hk : 0 < k) (h : n < 10 ^ k) : (decimal n).length ≤ k := by
  rw [decimal_eq, length_map]
  exact (Nat.length_toDigits_le_iff (by decide) hk).mpr h

/-! ## Peers -/

/-- `INET_ADDRSTRLEN`. -/
def inetAddrstrlen : Nat := 16

/-- `peer_t`. The address is a C string in `ip[INET_ADDRSTRLEN]` that has none of the characters the
log line sets it off with. -/
structure Peer where
  ip : List Byte
  port : Nat
  fits : ip.length < inetAddrstrlen
  plain : ∀ b ∈ ip, b ≠ nl ∧ b ≠ 58 ∧ b ≠ 93
  port_lt : port < 2 ^ 31

/-- `inet_ntop` of an IPv4 address. -/
def inetNtop (a b c d : UInt8) : List Byte :=
  decimal a.toNat ++ str "." ++ decimal b.toNat ++ str "." ++ decimal c.toNat ++ str "." ++
    decimal d.toNat

theorem ne_of_mem_decimal {b : Byte} {n : Nat} (h : b ∈ decimal n) : b ≠ nl ∧ b ≠ 58 ∧ b ≠ 93 := by
  obtain ⟨h1, h2⟩ := mem_decimal h
  refine ⟨?_, ?_, ?_⟩ <;> rintro rfl
  · exact absurd h1 (by decide)
  · exact absurd h2 (by decide)
  · exact absurd h2 (by decide)

/-- `peer_from_tcp`. -/
def peerFromTcp (a b c d : UInt8) (sinPort : UInt16) : Peer where
  ip := inetNtop a b c d
  port := sinPort.toNat
  fits := by
    have hlen : ∀ x : UInt8, (decimal x.toNat).length ≤ 3 := fun x =>
      length_decimal_le (by decide) (by have := x.toNat_lt; omega)
    have ha := hlen a
    have hb := hlen b
    have hc := hlen c
    have hd := hlen d
    have hdot : (str ".").length = 1 := rfl
    simp only [inetNtop, inetAddrstrlen, length_append, hdot]
    omega
  plain x hx := by
    have hdot : ∀ x ∈ str ".", x ≠ nl ∧ x ≠ 58 ∧ x ≠ 93 := forall_mem_of_all (by decide)
    simp only [inetNtop, mem_append] at hx
    rcases hx with (((((hx | hx) | hx) | hx) | hx) | hx) | hx
    · exact ne_of_mem_decimal hx
    · exact hdot x hx
    · exact ne_of_mem_decimal hx
    · exact hdot x hx
    · exact ne_of_mem_decimal hx
    · exact hdot x hx
    · exact ne_of_mem_decimal hx
  port_lt := by have := sinPort.toNat_lt; omega

/-- `peer_from_unix`, with the pid `getsockopt` returns, if it does. -/
def peerFromUnix (cred : Option {pid : Nat // pid < 2 ^ 31}) : Peer where
  ip := str "local"
  port := (cred.map Subtype.val).getD 0
  fits := by decide
  plain := forall_mem_of_all (by decide)
  port_lt := by
    cases cred with
    | none => exact Nat.two_pow_pos 31
    | some pid => exact pid.2

/-- How a peer is printed. -/
def Peer.text (p : Peer) : List Byte := p.ip ++ str ":" ++ decimal p.port

theorem Peer.text_plain (p : Peer) : ∀ b ∈ p.text, b ≠ nl ∧ b ≠ 93 := by
  intro b hb
  rw [Peer.text, mem_append, mem_append] at hb
  rcases hb with (hb | hb) | hb
  · exact ⟨(p.plain b hb).1, (p.plain b hb).2.2⟩
  · have hcolon : ∀ b ∈ str ":", b ≠ nl ∧ b ≠ 93 := forall_mem_of_all (by decide)
    exact hcolon b hb
  · exact ⟨(ne_of_mem_decimal hb).1, (ne_of_mem_decimal hb).2.2⟩

theorem Peer.length_text_le (p : Peer) : p.text.length ≤ 26 := by
  have hip := p.fits
  have hport : (decimal p.port).length ≤ 10 :=
    length_decimal_le (by decide) (p.port_lt.trans (by decide))
  have hcolon : (str ":").length = 1 := rfl
  simp only [inetAddrstrlen] at hip
  simp only [Peer.text, length_append, hcolon]
  omega

/-- A prefix up to the first `d` is determined by the whole. -/
theorem append_cons_inj {d : Byte} {a a' b b' : List Byte} (ha : d ∉ a) (ha' : d ∉ a')
    (h : a ++ d :: b = a' ++ d :: b') : a = a' ∧ b = b' := by
  have htake : ∀ {a b : List Byte}, d ∉ a → (a ++ d :: b).takeWhile (· != d) = a := by
    intro a b ha
    rw [takeWhile_append_of_pos fun x hx => by simpa using fun e : x = d => ha (e ▸ hx)]
    simp
  obtain rfl : a = a' := by rw [← htake (b := b) ha, h, htake ha']
  exact ⟨rfl, by simpa using h⟩

/-- **Peers are told apart by what is printed.** -/
theorem Peer.text_injective {p q : Peer} (h : p.text = q.text) : p = q := by
  have hcolon : ∀ r : Peer, r.text = r.ip ++ 58 :: decimal r.port := fun r => by
    simp [Peer.text, str]
  rw [hcolon, hcolon] at h
  obtain ⟨hip, hport⟩ := append_cons_inj (fun hm => (p.plain _ hm).2.1 rfl)
    (fun hm => (q.plain _ hm).2.1 rfl) h
  have hport := decimal_injective hport
  cases p
  cases q
  cases hip
  cases hport
  rfl

/-! ## Time stamps -/

/-- `struct tm`, as far as it is printed. -/
structure Tm where
  mon : Fin 12
  mday : Nat
  hour : Nat
  min : Nat
  sec : Nat
  mday_le : mday ≤ 31
  hour_lt : hour < 24
  min_lt : min < 60
  sec_le : sec ≤ 60

/-- `%b` in the C locale. -/
def monthName : Fin 12 → List Byte
  | 0 => str "Jan"
  | 1 => str "Feb"
  | 2 => str "Mar"
  | 3 => str "Apr"
  | 4 => str "May"
  | 5 => str "Jun"
  | 6 => str "Jul"
  | 7 => str "Aug"
  | 8 => str "Sep"
  | 9 => str "Oct"
  | 10 => str "Nov"
  | 11 => str "Dec"

/-- A number in a field of two, filled from the left. -/
def field2 (fill : Byte) (n : Nat) : List Byte :=
  if n < 10 then fill :: decimal n else decimal n

/-- `"%b %e %H:%M:%S"`. -/
def Tm.text (tm : Tm) : List Byte :=
  monthName tm.mon ++ str " " ++ field2 32 tm.mday ++ str " " ++ field2 48 tm.hour ++ str ":" ++
    field2 48 tm.min ++ str ":" ++ field2 48 tm.sec

/-- `strftime` into `size` bytes; `none` for 0. -/
def strftime (size : Nat) (tm : Tm) : Option (List Byte) :=
  if tm.text.length < size then some tm.text else none

theorem length_field2 {fill : Byte} {n : Nat} (h : n < 100) : (field2 fill n).length = 2 := by
  have h2 : (decimal n).length ≤ 2 := length_decimal_le (by decide) (by omega)
  have hpos : 0 < (decimal n).length := by
    rw [decimal_eq, length_map]
    exact Nat.length_toDigits_pos
  unfold field2
  split
  · rename_i h10
    have h1 : (decimal n).length ≤ 1 := length_decimal_le (by decide) (by omega)
    rw [length_cons]
    omega
  · rename_i h10
    have h1 : ¬ (decimal n).length ≤ 1 := by
      rw [decimal_eq, length_map, Nat.length_toDigits_le_iff (by decide) (by decide)]
      omega
    omega

theorem Tm.length_text (tm : Tm) : tm.text.length = 15 := by
  have hmon : ∀ m, (monthName m).length = 3 := by decide
  have hsp : (str " ").length = 1 := rfl
  have hcolon : (str ":").length = 1 := rfl
  have h1 := tm.mday_le
  have h2 := tm.hour_lt
  have h3 := tm.min_lt
  have h4 := tm.sec_le
  simp only [Tm.text, length_append, hmon, hsp, hcolon]
  rw [length_field2 (by omega), length_field2 (by omega), length_field2 (by omega),
    length_field2 (by omega)]

theorem mem_field2 {fill b : Byte} {n : Nat} (hfill : fill ≠ nl) (h : b ∈ field2 fill n) :
    b ≠ nl := by
  unfold field2 at h
  split at h
  · rcases mem_cons.mp h with rfl | h
    · exact hfill
    · exact (ne_of_mem_decimal h).1
  · exact (ne_of_mem_decimal h).1

theorem Tm.nl_not_mem_text (tm : Tm) : nl ∉ tm.text := by
  have hmon : ∀ m, nl ∉ monthName m := by decide
  have hsp : nl ∉ str " " := by decide
  have hcolon : nl ∉ str ":" := by decide
  simp only [Tm.text, mem_append, hmon, hsp, hcolon, or_false, false_or, not_or]
  exact ⟨⟨⟨fun h => mem_field2 (by decide) h rfl, fun h => mem_field2 (by decide) h rfl⟩,
    fun h => mem_field2 (by decide) h rfl⟩, fun h => mem_field2 (by decide) h rfl⟩

/-! ## Entries -/

/-- `sizeof entry`. -/
def entrySize : Nat := yashMaxLine + 128

/-- An entry without its newline. -/
def entryBody (peer : Peer) (tm : Tm) (cmdline : List Byte) : List Byte :=
  tm.text ++ str " yashd[" ++ peer.text ++ str "]: " ++ cmdline

/-- `log_command`: what it writes to the log. `now` is what `localtime_r` returns. -/
def logCommand (isOpen : Bool) (peer : Peer) (now : Option Tm) (cmdline : List Byte) : List Byte :=
  if isOpen = false ∨ cmdline = [] then []
  else
    match now.bind (strftime 32) with
    | none => []
    | some stamp =>
      -- what `snprintf` would have printed, and how much of it it has
      let text := stamp ++ str " yashd[" ++ peer.ip ++ str ":" ++ decimal peer.port ++ str "]: " ++
        cmdline ++ [nl]
      let n := if entrySize ≤ text.length then entrySize - 1 else text.length
      text.take n

section Entry

variable {peer : Peer} {tm : Tm} {cmdline : List Byte}

/-- **An entry is written whole**, for any command line `parse_line` accepts. -/
theorem logCommand_eq (hne : cmdline ≠ []) (hlen : cmdline.length ≤ yashMaxLine) :
    logCommand true peer (some tm) cmdline = entryBody peer tm cmdline ++ [nl] := by
  have hstamp : strftime 32 tm = some tm.text := by
    rw [strftime, tm.length_text]
    rfl
  have htext : tm.text ++ str " yashd[" ++ peer.ip ++ str ":" ++ decimal peer.port ++ str "]: " ++
      cmdline ++ [nl] = entryBody peer tm cmdline ++ [nl] := by
    simp only [entryBody, Peer.text, append_assoc]
  have hshort : ¬ entrySize ≤ (entryBody peer tm cmdline ++ [nl]).length := by
    have hpeer := peer.length_text_le
    have h1 : (str " yashd[").length = 7 := rfl
    have h2 : (str "]: ").length = 3 := rfl
    simp only [entryBody, entrySize, yashMaxLine, length_append, tm.length_text, h1, h2,
      length_singleton] at hlen ⊢
    omega
  simp only [logCommand, Bool.true_eq_false, false_or, if_neg hne, Option.bind_some, hstamp, htext,
    if_neg hshort, take_length]

theorem nl_not_mem_entryBody (h : nl ∉ cmdline) : nl ∉ entryBody peer tm cmdline := by
  have h1 : nl ∉ str " yashd[" := by decide
  have h2 : nl ∉ str "]: " := by decide
  have hpeer : nl ∉ peer.text := fun hm => (peer.text_plain _ hm).1 rfl
  simp only [entryBody, mem_append, tm.nl_not_mem_text, h1, h2, hpeer, h, or_self, not_false_iff]

end Entry

/-! ### Reading an entry -/

/-- The length of what precedes the peer: the time stamp and `" yashd["`. -/
def headerLen : Nat := 22

/-- The peer an entry names: up to the `']'`. -/
def identity (entry : List Byte) : List Byte := (entry.drop headerLen).takeWhile (· != 93)

/-- The command line of an entry, after the peer and `"]: "`. -/
def commandText (entry : List Byte) : List Byte :=
  entry.drop (headerLen + (identity entry).length + 3)

section Reading

variable (peer : Peer) (tm : Tm) (cmdline : List Byte)

theorem drop_headerLen : (entryBody peer tm cmdline).drop headerLen =
    peer.text ++ (str "]: " ++ cmdline) := by
  have hlen : headerLen = (tm.text ++ str " yashd[").length := by
    rw [length_append, tm.length_text]
    rfl
  rw [hlen, entryBody, append_assoc, append_assoc, drop_left]

theorem identity_entry : identity (entryBody peer tm cmdline) = peer.text := by
  rw [identity, drop_headerLen, takeWhile_append_of_pos fun b hb => by
    simpa using (peer.text_plain b hb).2]
  simp [str]

theorem commandText_entry : commandText (entryBody peer tm cmdline) = cmdline := by
  rw [commandText, identity_entry, Nat.add_assoc, ← drop_drop, drop_headerLen, ← append_assoc]
  have hlen : peer.text.length + 3 = (peer.text ++ str "]: ").length := by
    rw [length_append]
    rfl
  rw [hlen, drop_left]

end Reading

end SystemProg.Yashd
