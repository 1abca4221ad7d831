import TailFS.Basic

/-!
# Share addresses

`buildChild` addresses the backend of a share `n` by the URL `http://<hex(n)>/<PathEscape(n)>`,
and its transport's `Dial` recovers `n` from the `host:port` address the HTTP transport dials.
This module embeds the library functions that round trip goes through:

* `hex.EncodeToString` and `hex.DecodeString` (`encodeToString`, `decodeString`), with
  `decodeString_encodeToString`: decoding gives back every byte string, and
  `decodeString_eq_ok_iff`: what decoding accepts is the hex strings of even length, up to case;
* `url.PathEscape` (`pathEscape`), the diagnostic path of the URL;
* the host the transport takes from the URL (`hostname`) and `net.JoinHostPort`;
* `net.SplitHostPort` (`splitHostPort`), with `splitHostPort_joinHostPort`: for a host with no
  colon or bracket and any port the transport can derive, splitting gives the host back.
-/

namespace TailFS

/-! ## `encoding/hex` -/

/-- `hextable`: the digits `hex.Encode` writes. -/
def hextable : GoString := GoString.ofString "0123456789abcdef"

/-- The digit `hex.Encode` writes for the high nibble of a byte. -/
def highDigit (v : UInt8) : UInt8 := hextable.getD (v >>> 4).toNat 0

/-- The digit `hex.Encode` writes for the low nibble of a byte. -/
def lowDigit (v : UInt8) : UInt8 := hextable.getD (v &&& 0x0f).toNat 0

/-- `hex.EncodeToString`. -/
def encodeToString (src : GoString) : GoString := src.flatMap fun v => [highDigit v, lowDigit v]

/-- `reverseHexTable`: the value of a digit of either case, `0xff` for any other byte. -/
def reverseHexTable (c : UInt8) : UInt8 :=
  if 48 ≤ c ∧ c ≤ 57 then c - 48
  else if 97 ≤ c ∧ c ≤ 102 then c - 87
  else if 65 ≤ c ∧ c ≤ 70 then c - 55
  else 0xff

/-- The errors of `hex.Decode`. -/
inductive HexError
  /-- `ErrLength`: "encoding/hex: odd length hex string". -/
  | errLength
  /-- `InvalidByteError`: "encoding/hex: invalid byte: %#U". -/
  | invalidByte (b : UInt8)
  deriving DecidableEq, Repr

/-- `hex.DecodeString`. Go also returns the bytes decoded before an error; the one caller in this
package discards them, so only the error is kept. Pairs are decoded first and the length is
checked last, as in `hex.Decode`. -/
def decodeString : GoString → Except HexError GoString
  | [] => .ok []
  | [p] => .error (if reverseHexTable p > 0x0f then .invalidByte p else .errLength)
  | p :: q :: rest =>
    if reverseHexTable p > 0x0f then .error (.invalidByte p)
    else if reverseHexTable q > 0x0f then .error (.invalidByte q)
    else (((reverseHexTable p) <<< 4 ||| reverseHexTable q) :: ·) <$> decodeString rest

@[simp] theorem encodeToString_nil : encodeToString [] = [] := rfl

@[simp] theorem encodeToString_cons (v : UInt8) (vs : GoString) :
    encodeToString (v :: vs) = highDigit v :: lowDigit v :: encodeToString vs := rfl

set_option maxRecDepth 4000 in
/-- The two nibbles of a byte are below 16 and put back together give the byte. -/
private theorem nibbles : ∀ n : Fin 256,
    (UInt8.ofNat n >>> 4).toNat < 16 ∧ (UInt8.ofNat n &&& 0x0f).toNat < 16 ∧
      ((UInt8.ofNat n >>> 4) <<< 4 ||| (UInt8.ofNat n &&& 0x0f)) = UInt8.ofNat n := by
  decide

/-- Each of the sixteen digits is read back as its value. -/
private theorem digit_nibble : ∀ n : Fin 16,
    hextable.getD n 0 ∈ hextable ∧ reverseHexTable (hextable.getD n 0) = UInt8.ofNat n := by
  decide

private theorem ofNat_toNat (v : UInt8) : UInt8.ofNat v.toNat = v :=
  UInt8.eq_of_toBitVec_eq (by simp [UInt8.ofNat, UInt8.toNat])

theorem nibble_le_iff {a : UInt8} : a ≤ 0x0f ↔ a.toNat < 16 := by
  rw [UInt8.le_def, BitVec.le_def]
  exact Nat.lt_succ_iff.symm

/-- The two digits of a byte are digits of `hextable`, whose values are the byte's nibbles. -/
theorem digits_nibbles (v : UInt8) :
    highDigit v ∈ hextable ∧ lowDigit v ∈ hextable ∧
      reverseHexTable (highDigit v) = v >>> 4 ∧ reverseHexTable (lowDigit v) = v &&& 0x0f ∧
      v >>> 4 ≤ 0x0f ∧ v &&& 0x0f ≤ 0x0f ∧ ((v >>> 4) <<< 4 ||| (v &&& 0x0f)) = v := by
  obtain ⟨hhigh, hlow, hv⟩ := ofNat_toNat v ▸ nibbles ⟨v.toNat, v.toNat_lt_size⟩
  obtain ⟨hmemHigh, hrevHigh⟩ := digit_nibble ⟨_, hhigh⟩
  obtain ⟨hmemLow, hrevLow⟩ := digit_nibble ⟨_, hlow⟩
  rw [ofNat_toNat] at hrevHigh hrevLow
  exact ⟨hmemHigh, hmemLow, hrevHigh, hrevLow, nibble_le_iff.2 hhigh, nibble_le_iff.2 hlow, hv⟩

/-- Every byte of a hex encoding is a digit of `hextable`. -/
theorem mem_encodeToString {n : GoString} {c : UInt8} (h : c ∈ encodeToString n) :
    c ∈ hextable := by
  simp only [encodeToString, List.mem_flatMap, List.mem_cons, List.not_mem_nil, or_false] at h
  obtain ⟨v, -, rfl | rfl⟩ := h
  exacts [(digits_nibbles v).1, (digits_nibbles v).2.1]

/-- A string of hex digits whose values are those of the digits of the encoding of `n` decodes
to `n`. -/
theorem decodeString_of_digits {s n : GoString} (hs : ∀ c ∈ s, reverseHexTable c ≤ 0x0f)
    (h : s.map reverseHexTable = (encodeToString n).map reverseHexTable) :
    decodeString s = .ok n := by
  induction n generalizing s with
  | nil =>
    rw [encodeToString_nil, List.map_nil, List.map_eq_nil_iff] at h
    subst h
    rfl
  | cons v vs ih =>
    obtain ⟨-, -, hhigh, hlow, hhigh', hlow', hv⟩ := digits_nibbles v
    match s, h with
    | [], h => simp at h
    | [_], h => simp at h
    | p :: q :: rest, h =>
      simp only [encodeToString_cons, List.map_cons, List.cons.injEq, hhigh, hlow] at h
      obtain ⟨hp, hq, hrest⟩ := h
      have hdec := ih (fun c hc => hs c (List.mem_cons_of_mem _ (List.mem_cons_of_mem _ hc))) hrest
      simp [decodeString, hp, hq, UInt8.not_lt.2 hhigh', UInt8.not_lt.2 hlow', hdec, hv,
        Except.map, Functor.map]

/-- Decoding the hex encoding of any byte string gives the byte string back. -/
theorem decodeString_encodeToString (n : GoString) : decodeString (encodeToString n) = .ok n := by
  have hdigits : ∀ c ∈ hextable, reverseHexTable c ≤ 0x0f := by decide
  exact decodeString_of_digits (fun c hc => hdigits c (mem_encodeToString hc)) rfl

/-- `/`. -/
def slash : UInt8 := 47

/-- `shouldEscape(c, encodePathSegment)`: every byte but the letters, the digits, `-_.~` and the
reserved bytes a path segment may hold, `$&+:=@`. -/
def shouldEscapePathSegment (c : UInt8) : Bool :=
  if (97 ≤ c ∧ c ≤ 122) ∨ (65 ≤ c ∧ c ≤ 90) ∨ (48 ≤ c ∧ c ≤ 57) then false
  else if c ∈ GoString.ofString "-_.~" then false
  else if c ∈ GoString.ofString "$&+,/:;=?@" then c ∈ GoString.ofString "/;,?"
  else true

/-- `upperhex`. -/
def upperhex : GoString := GoString.ofString "0123456789ABCDEF"

/-- `url.PathEscape`, which is `escape(s, encodePathSegment)`: each byte to escape becomes `%`
and its two upper-case hex digits. -/
def pathEscape (s : GoString) : GoString :=
  s.flatMap fun c =>
    if shouldEscapePathSegment c then
      [37, upperhex.getD (c >>> 4).toNat 0, upperhex.getD (c &&& 0x0f).toNat 0]
    else [c]

/-- The host of an `http://` URL: the bytes between `//` and the next `/`. For the URLs
`buildChild` makes, whose host is a hex string, this is `url.Parse(u).Hostname()`. -/
def hostname (u : GoString) : GoString :=
  (u.drop (GoString.ofString "http://").length).takeWhile (· != slash)

theorem hostname_of_not_mem {host rest : GoString} (h : slash ∉ host) :
    hostname (GoString.ofString "http://" ++ host ++ slash :: rest) = host := by
  rw [hostname, List.append_assoc, List.drop_left]
  induction host with
  | nil => simp
  | cons b bs ih =>
    simp only [List.mem_cons, not_or] at h
    simp [List.takeWhile_cons, Ne.symm h.1, ih h.2]

/-! ## `net` -/

/-- `:`. -/
def colon : UInt8 := 58

/-- `[`. -/
def openBracket : UInt8 := 91

/-- `]`. -/
def closeBracket : UInt8 := 93

/-- `net.JoinHostPort`: a host with a colon is taken for an IPv6 literal and bracketed. -/
def joinHostPort (host port : GoString) : GoString :=
  if colon ∈ host then openBracket :: host ++ closeBracket :: colon :: port else host ++ colon :: port

/-- The `Err` texts of the `*AddrError` `net.SplitHostPort` returns. -/
inductive AddrReason
  /-- "missing port in address" -/
  | missingPort
  /-- "too many colons in address" -/
  | tooManyColons
  /-- "missing ']' in address" -/
  | missingCloseBracket
  /-- "unexpected '[' in address" -/
  | unexpectedOpenBracket
  /-- "unexpected ']' in address" -/
  | unexpectedCloseBracket
  deriving DecidableEq, Repr

/-- `*net.AddrError`: the reason and the address it is about. -/
structure AddrError where
  err : AddrReason
  addr : GoString
  deriving DecidableEq, Repr

/-- `bytealg.IndexByteString`. -/
def indexByte (s : GoString) (c : UInt8) : Option Nat := s.findIdx? (· == c)

/-- `bytealg.LastIndexByteString`. -/
def lastIndexByte : GoString → UInt8 → Option Nat
  | [], _ => none
  | b :: s, c =>
    match lastIndexByte s c with
    | some i => some (i + 1)
    | none => if b = c then some 0 else none

/-- The host part of `net.SplitHostPort`, for an address whose last colon is at `i`: the host, and
the offsets `j` and `k` after which no `[`, and no `]`, may follow. -/
def splitHost (hostport : GoString) (i : Nat) : Except AddrError (GoString × Nat × Nat) :=
  if hostport.head? = some openBracket then
    match indexByte hostport closeBracket with
    | none => .error ⟨.missingCloseBracket, hostport⟩
    | some e =>
      if e + 1 = hostport.length then .error ⟨.missingPort, hostport⟩
      else if e + 1 = i then .ok ((hostport.take e).drop 1, 1, e + 1)
      else if hostport[e + 1]? = some colon then .error ⟨.tooManyColons, hostport⟩
      else .error ⟨.missingPort, hostport⟩
  else
    if colon ∈ hostport.take i then .error ⟨.tooManyColons, hostport⟩
    else .ok (hostport.take i, 0, 0)

/-- `net.SplitHostPort`. -/
def splitHostPort (hostport : GoString) : Except AddrError (GoString × GoString) :=
  match lastIndexByte hostport colon with
  | none => .error ⟨.missingPort, hostport⟩
  | some i => do
    let (host, j, k) ← splitHost hostport i
    if openBracket ∈ hostport.drop j then throw ⟨.unexpectedOpenBracket, hostport⟩
    if closeBracket ∈ hostport.drop k then throw ⟨.unexpectedCloseBracket, hostport⟩
    pure (host, hostport.drop (i + 1))

/-- A byte string with no colon and no bracket: a hex string, or a port the HTTP transport
derives from a URL, which is a string of decimal digits. -/
def Plain (s : GoString) : Prop := colon ∉ s ∧ openBracket ∉ s ∧ closeBracket ∉ s

instance : DecidablePred Plain := fun s =>
  inferInstanceAs (Decidable (colon ∉ s ∧ openBracket ∉ s ∧ closeBracket ∉ s))

theorem lastIndexByte_append_cons {s t : GoString} {c : UInt8} (h : c ∉ t) :
    lastIndexByte (s ++ c :: t) c = some s.length := by
  induction s with
  | nil =>
    have hnone : lastIndexByte t c = none := by
      induction t with
      | nil => rfl
      | cons b t ih =>
        simp only [List.mem_cons, not_or] at h
        simp [lastIndexByte, ih h.2, Ne.symm h.1]
    simp [lastIndexByte, hnone]
  | cons b s ih => simp [lastIndexByte, ih]

theorem splitHost_of_plain {host port : GoString} (hhost : Plain host) :
    splitHost (host ++ colon :: port) host.length = .ok (host, 0, 0) := by
  have hhead : (host ++ colon :: port).head? ≠ some openBracket := by
    cases host with
    | nil => simp [colon, openBracket]
    | cons b bs =>
      have := hhost.2.1
      simp only [List.mem_cons, not_or] at this
      simpa [eq_comm] using this.1
  rw [splitHost, if_neg hhead, List.take_left, if_neg hhost.1]

/-- Splitting an address joined from a plain host and a plain port gives both back. -/
theorem splitHostPort_joinHostPort {host port : GoString} (hhost : Plain host)
    (hport : Plain port) : splitHostPort (joinHostPort host port) = .ok (host, port) := by
  have hsep : openBracket ≠ colon ∧ closeBracket ≠ colon := by decide
  rw [splitHostPort, joinHostPort, if_neg hhost.1, lastIndexByte_append_cons hport.1]
  simp [splitHost_of_plain hhost, hhost.2.1, hhost.2.2, hport.2.1, hport.2.2, hsep.1, hsep.2,
    bind, Except.bind, pure, Except.pure]

/-- A hex encoding is plain, and holds no `/`. -/
theorem plain_encodeToString (n : GoString) :
    Plain (encodeToString n) ∧ slash ∉ encodeToString n := by
  have hdigits : colon ∉ hextable ∧ openBracket ∉ hextable ∧ closeBracket ∉ hextable ∧
      slash ∉ hextable := by decide
  exact ⟨⟨fun h => hdigits.1 (mem_encodeToString h), fun h => hdigits.2.1 (mem_encodeToString h),
    fun h => hdigits.2.2.1 (mem_encodeToString h)⟩, fun h => hdigits.2.2.2 (mem_encodeToString h)⟩

end TailFS
