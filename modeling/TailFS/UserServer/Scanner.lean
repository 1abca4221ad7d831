import TailFS.Address

/-!
# Reading the address line

`run` reads the address of the child it started from the child's stdout: one `Scan` of a
`bufio.Scanner` with `ScanLines`, then `Err()`, then `Text()`, trimmed by `strings.TrimSpace`.

`Scanner.scan` is that first `Scan` as `bufio` runs it: the buffer starts empty, grows to 4096
bytes and then doubles up to `MaxScanTokenSize`, and each read of the pipe returns at least one
byte and at most the free space, or, once the child's output is exhausted, `io.EOF`, a read error,
or nothing at all (the read blocks).

* `scan_eq_firstLine`: however the pipe splits the output into reads, the first `Scan` gives
  `firstLine` of the output and of how it ends: the first line if a newline comes within
  `MaxScanTokenSize` bytes, `ErrTooLong` if none does, and otherwise the unterminated rest at the
  end of the stream.
* `addrAfterRead_cases`: `run` leaves `s.addr` as it was exactly when `Err()` reports an error,
  and otherwise sets it to the line the scan read, or to `TrimSpace("")` when the child closes its
  stdout without writing a byte (`addrAfterRead_emptyStdout`).
-/

namespace TailFS
namespace Scanner

/-- `'\n'`. -/
def newline : UInt8 := 10

/-- `'\r'`. -/
def carriageReturn : UInt8 := 13

/-- `bufio.MaxScanTokenSize`. -/
def maxScanTokenSize : Nat := 64 * 1024

/-- `startBufSize`: the size of a scanner's first buffer. -/
def startBufSize : Nat := 4096

/-- How the child's stdout goes on after the bytes it has written: the child closes it (a read
returns `io.EOF`), a read fails, or it stays open with nothing more written (a read blocks). -/
inductive Ending
  | eof
  | error (err : Nat)
  | stalled
  deriving DecidableEq, Repr

/-- The error a scanner holds: `io.EOF`, the error of a read, or `ErrTooLong`. -/
inductive ScanErr
  | eof
  | read (err : Nat)
  | tooLong
  deriving DecidableEq, Repr

/-- `dropCR`. -/
def dropCR (data : List UInt8) : List UInt8 :=
  if data.getLast? = some carriageReturn then data.dropLast else data

/-- The token of `ScanLines(data, atEOF)`; `none` is the nil token, on which `Scan` reads on. -/
def scanLines (data : List UInt8) (atEOF : Bool) : Option (List UInt8) :=
  if atEOF ∧ data = [] then none
  else
    match indexByte data newline with
    | some i => some (dropCR (data.take i))
    | none => if atEOF then some (dropCR data) else none

/-- The first `Scan` of a scanner whose buffer has `size` bytes, holding `buf`, with `rest` still
in the pipe, the error `err` recorded, after `i` reads; `sizes i` bounds what the next read
returns. The result is the token and the error the scanner holds when `Scan` returns, `none` if
it blocks or runs out of `fuel`. -/
def scan (sizes : Nat → Nat) (ending : Ending) :
    (fuel size : Nat) → (buf rest : List UInt8) → Option ScanErr → Nat →
      Option (Option (List UInt8) × Option ScanErr)
  | 0, _, _, _, _, _ => none
  | fuel + 1, size, buf, rest, err, i =>
    let token := if buf ≠ [] ∨ err.isSome then scanLines buf err.isSome else none
    match token with
    | some token => some (some token, err)
    | none =>
      if err.isSome then some (none, err)
      else if buf.length = size ∧ maxScanTokenSize ≤ size then some (none, some .tooLong)
      else
        let size :=
          if buf.length = size then
            min (if size = 0 then startBufSize else 2 * size) maxScanTokenSize
          else size
        match rest with
        | [] =>
          match ending with
          | .eof => scan sizes ending fuel size buf [] (some .eof) (i + 1)
          | .error e => scan sizes ending fuel size buf [] (some (.read e)) (i + 1)
          | .stalled => none
        | b :: bs =>
          let n := min (max (sizes i) 1) (size - buf.length)
          scan sizes ending fuel size (buf ++ (b :: bs).take n) ((b :: bs).drop n) none (i + 1)

/-- The first `Scan` of `bufio.NewScanner(stdout)` over a child that writes `data`, then `ending`. -/
def firstScan (sizes : Nat → Nat) (data : List UInt8) (ending : Ending) :
    Option (Option (List UInt8) × Option ScanErr) :=
  scan sizes ending (data.length + 2) 0 [] data none 0

/-- What the first `Scan` gives, read off the whole output. -/
def firstLine (data : List UInt8) (ending : Ending) : Option (Option (List UInt8) × Option ScanErr) :=
  match indexByte data newline with
  | some i =>
    if i < maxScanTokenSize then some (some (dropCR (data.take i)), none)
    else some (none, some .tooLong)
  | none =>
    if maxScanTokenSize ≤ data.length then some (none, some .tooLong)
    else
      match ending with
      | .eof => some (if data = [] then none else some (dropCR data), some .eof)
      | .error e => some (if data = [] then none else some (dropCR data), some (.read e))
      | .stalled => none

/-! ## The first `Scan` reads the first line -/

theorem firstLine_of_some {data : List UInt8} {i : Nat} (h : indexByte data newline = some i)
    (hi : i < maxScanTokenSize) (ending : Ending) :
    firstLine data ending = some (some (dropCR (data.take i)), none) := by
  simp [firstLine, h, hi]

/-- No newline within the first `MaxScanTokenSize` bytes of a longer output: `ErrTooLong`. -/
theorem firstLine_tooLong {data : List UInt8}
    (h : ∀ i, indexByte data newline = some i → maxScanTokenSize ≤ i)
    (hlen : maxScanTokenSize ≤ data.length) (ending : Ending) :
    firstLine data ending = some (none, some .tooLong) := by
  unfold firstLine
  cases hi : indexByte data newline with
  | none => simp [hlen]
  | some i => simp [Nat.not_lt.2 (h i hi)]

theorem firstLine_of_none {data : List UInt8} (h : indexByte data newline = none)
    (hlen : data.length < maxScanTokenSize) (ending : Ending) :
    firstLine data ending =
      match ending with
      | .eof => some (if data = [] then none else some (dropCR data), some .eof)
      | .error e => some (if data = [] then none else some (dropCR data), some (.read e))
      | .stalled => none := by
  simp [firstLine, h, Nat.not_le.2 hlen]

theorem indexByte_cons (b : UInt8) (s : GoString) (c : UInt8) :
    indexByte (b :: s) c = if b = c then some 0 else (indexByte s c).map (· + 1) := by
  simp only [indexByte, List.findIdx?_cons, beq_iff_eq, List.findIdx?_succ]

theorem indexByte_append_of_none {s t : GoString} {c : UInt8} (h : indexByte s c = none) :
    indexByte (s ++ t) c = (indexByte t c).map (s.length + ·) := by
  induction s with
  | nil => simp
  | cons b s ih =>
    rw [indexByte_cons] at h
    split at h
    · cases h
    · rw [List.cons_append, indexByte_cons, if_neg ‹_›, ih (Option.map_eq_none'.1 h)]
      cases indexByte t c with
      | none => rfl
      | some j => simp only [Option.map_some', List.length_cons, Option.some.injEq]; omega

theorem indexByte_append_of_some {s t : GoString} {c : UInt8} {i : Nat}
    (h : indexByte s c = some i) : indexByte (s ++ t) c = some i := by
  induction s generalizing i with
  | nil => cases h
  | cons b s ih =>
    rw [indexByte_cons] at h
    rw [List.cons_append, indexByte_cons]
    split at h
    · rw [if_pos ‹_›, h]
    · obtain ⟨j, hj, rfl⟩ := Option.map_eq_some'.1 h
      rw [if_neg ‹_›, ih hj]
      rfl

theorem indexByte_lt {s : GoString} {c : UInt8} {i : Nat} (h : indexByte s c = some i) :
    i < s.length := by
  induction s generalizing i with
  | nil => cases h
  | cons b s ih =>
    rw [indexByte_cons] at h
    split at h
    · cases h; simp
    · obtain ⟨j, hj, rfl⟩ := Option.map_eq_some'.1 h
      simpa using ih hj

/-- `Scan` once the reads have ended: the rest of the buffer is the last token, if any. -/
theorem scan_ended (sizes : Nat → Nat) (ending : Ending) {buf : List UInt8}
    (hbuf : indexByte buf newline = none) (fuel size i : Nat) (err : ScanErr) :
    scan sizes ending (fuel + 1) size buf [] (some err) i =
      some (if buf = [] then none else some (dropCR buf), some err) := by
  by_cases hb : buf = []
  · subst hb
    simp [scan, scanLines]
  · simp [scan, scanLines, hb, hbuf]

/-- `Scan` with a newline in its buffer returns the line before it. -/
theorem scan_token (sizes : Nat → Nat) (ending : Ending) {buf : List UInt8} {j : Nat}
    (hbuf : indexByte buf newline = some j) (fuel size : Nat) (rest : List UInt8) (i : Nat) :
    scan sizes ending (fuel + 1) size buf rest none i = some (some (dropCR (buf.take j)), none) := by
  have hne : buf ≠ [] := by rintro rfl; cases hbuf
  simp [scan, scanLines, hne, hbuf]

/-- The loop of the first `Scan`, from a buffer of the output with no newline yet. -/
theorem scan_loop (sizes : Nat → Nat) (ending : Ending) (fuel : Nat) :
    ∀ (size : Nat) (buf rest : List UInt8) (i : Nat), indexByte buf newline = none →
      buf.length ≤ size → size ≤ maxScanTokenSize → rest.length + 2 ≤ fuel →
      scan sizes ending fuel size buf rest none i = firstLine (buf ++ rest) ending := by
  induction fuel with
  | zero => exact fun _ _ _ _ _ _ _ hfuel => absurd hfuel (by omega)
  | succ fuel ih =>
    intro size buf rest i hbuf hsize hmax hfuel
    have hlines : (if buf ≠ [] ∨ (none : Option ScanErr).isSome = true then
        scanLines buf (none : Option ScanErr).isSome else none) = none := by
      split <;> simp [scanLines, hbuf]
    rw [scan, hlines]
    simp only [Option.isSome_none, Bool.false_eq_true, if_false]
    by_cases hfull : buf.length = size ∧ maxScanTokenSize ≤ size
    · -- The buffer is full at the largest size with no newline in it.
      rw [if_pos hfull, firstLine_tooLong _ (by rw [List.length_append]; omega)]
      intro j hj
      rw [indexByte_append_of_none hbuf] at hj
      obtain ⟨j, -, rfl⟩ := Option.map_eq_some'.1 hj
      omega
    · rw [if_neg hfull]
      set size' := if buf.length = size then
        min (if size = 0 then startBufSize else 2 * size) maxScanTokenSize else size
      have hsize' : buf.length < size' ∧ size' ≤ maxScanTokenSize := by
        simp only [size', startBufSize, maxScanTokenSize] at hfull hmax ⊢
        split_ifs <;> omega
      cases rest with
      | nil =>
        rw [List.append_nil, firstLine_of_none hbuf (by omega)]
        obtain ⟨fuel, rfl⟩ : ∃ k, fuel = k + 1 := ⟨fuel - 1, by simp at hfuel; omega⟩
        cases ending with
        | eof => exact scan_ended sizes _ hbuf fuel _ _ _
        | error e => exact scan_ended sizes _ hbuf fuel _ _ _
        | stalled => rfl
      | cons b bs =>
        simp only
        set n := min (max (sizes i) 1) (size' - buf.length)
        have hn : 1 ≤ n := by simp only [n]; omega
        have hsplit : buf ++ b :: bs = (buf ++ (b :: bs).take n) ++ (b :: bs).drop n := by
          rw [List.append_assoc, List.take_append_drop]
        rw [hsplit]
        cases hj : indexByte (buf ++ (b :: bs).take n) newline with
        | none =>
          refine ih size' _ _ (i + 1) hj ?_ hsize'.2 ?_
          · simp only [List.length_append, List.length_take]; omega
          · simp only [List.length_drop, List.length_cons] at hfuel ⊢; omega
        | some j =>
          have hlt := indexByte_lt hj
          have hlen : (buf ++ (b :: bs).take n).length ≤ size' := by
            simp only [List.length_append, List.length_take]; omega
          obtain ⟨fuel, rfl⟩ : ∃ k, fuel = k + 1 := ⟨fuel - 1, by omega⟩
          rw [scan_token sizes ending hj,
            firstLine_of_some (indexByte_append_of_some hj) (by omega : j < maxScanTokenSize),
            List.take_append_of_le_length hlt.le]

/-- **The first `Scan` reads the first line.** However the pipe splits the child's output into
reads, the first `Scan` returns what `firstLine` reads off the whole output. -/
theorem scan_eq_firstLine (sizes : Nat → Nat) (data : List UInt8) (ending : Ending) :
    firstScan sizes data ending = firstLine data ending :=
  scan_loop sizes ending _ 0 [] data 0 rfl le_rfl (by decide) le_rfl

/-- With no token, the first `Scan` holds an error other than `io.EOF`, unless the child wrote
nothing and closed its stdout. -/
theorem firstLine_eq_none_token {data : List UInt8} {ending : Ending} {e : Option ScanErr}
    (h : firstLine data ending = some (none, e)) :
    e ≠ some .eof ∧ e ≠ none ∨ data = [] ∧ ending = .eof ∧ e = some .eof := by
  have tooLong : some ScanErr.tooLong ≠ some .eof ∧ some ScanErr.tooLong ≠ none := by simp
  unfold firstLine at h
  split at h
  · split at h
    · simp at h
    · obtain ⟨-, rfl⟩ := Option.some.inj h |> Prod.mk.inj
      exact .inl tooLong
  · split at h
    · obtain ⟨-, rfl⟩ := Option.some.inj h |> Prod.mk.inj
      exact .inl tooLong
    · cases ending with
      | eof =>
        obtain ⟨htoken, rfl⟩ := Option.some.inj h |> Prod.mk.inj
        exact .inr ⟨not_not.1 fun hne => by simp [hne] at htoken, rfl, rfl⟩
      | error err =>
        obtain ⟨-, rfl⟩ := Option.some.inj h |> Prod.mk.inj
        exact .inl (by simp)
      | stalled => cases h

/-! ## `run` stores the address -/

/-- `Err()`: `io.EOF` is not reported. -/
def err (e : Option ScanErr) : Option ScanErr := if e = some .eof then none else e

section
variable (trimSpace : GoString → GoString)

/-- What `run` does once the first `Scan` returns with the token and the error in `scanned`:
return the error `Err()` reports, or set `s.addr` to `strings.TrimSpace(stdoutScanner.Text())`,
where `Text()` of the nil token is `""`. `trimSpace` is `strings.TrimSpace`. -/
def readAddr (scanned : Option (List UInt8) × Option ScanErr) : Except ScanErr GoString :=
  match err scanned.2 with
  | some e => .error e
  | none => .ok (trimSpace (scanned.1.getD []))

/-- `s.addr` after `run` reads the address of a child that writes `data` and then `ending`, from
`addr` before; `none` while the read blocks. -/
def addrAfterRead (sizes : Nat → Nat) (data : List UInt8) (ending : Ending) (addr : GoString) :
    Option GoString :=
  (firstScan sizes data ending).map fun scanned =>
    match readAddr trimSpace scanned with
    | .ok a => a
    | .error _ => addr

/-- A first line within `MaxScanTokenSize` bytes is stored, trimmed. -/
theorem addrAfterRead_line (sizes : Nat → Nat) {data : List UInt8} {i : Nat}
    (h : indexByte data newline = some i) (hi : i < maxScanTokenSize) (ending : Ending)
    (addr : GoString) :
    addrAfterRead trimSpace sizes data ending addr = some (trimSpace (dropCR (data.take i))) := by
  simp [addrAfterRead, scan_eq_firstLine, firstLine_of_some h hi, readAddr, err]

/-- **What `run` stores.** Once the first `Scan` has returned, `s.addr` keeps its value exactly
when `Err()` reports an error; otherwise it is set to the trimmed token of a `Scan` that returned
`true`, or, with no token, the child wrote nothing and closed its stdout, and `s.addr` is set to
`TrimSpace("")`. The three cases are told apart by what the `Scan` returned. -/
theorem addrAfterRead_cases (sizes : Nat → Nat) {data : List UInt8} {ending : Ending}
    {addr a : GoString} (h : addrAfterRead trimSpace sizes data ending addr = some a) :
    (∃ token e, firstScan sizes data ending = some (token, e) ∧ err e ≠ none ∧ a = addr) ∨
      (∃ line e, firstScan sizes data ending = some (some line, e) ∧ err e = none ∧
        a = trimSpace line) ∨
      (data = [] ∧ ending = .eof ∧ firstScan sizes data ending = some (none, some .eof) ∧
        a = trimSpace []) := by
  obtain ⟨⟨token, e⟩, hs, rfl⟩ := Option.map_eq_some'.1 h
  unfold readAddr
  cases he : err e with
  | some e' => exact .inl ⟨token, e, hs, by simp [he], rfl⟩
  | none =>
    cases token with
    | some line => exact .inr (.inl ⟨line, e, hs, he, rfl⟩)
    | none =>
      rw [scan_eq_firstLine] at hs
      rcases firstLine_eq_none_token hs with ⟨hne, hnone⟩ | ⟨rfl, rfl, rfl⟩
      · exact absurd he (by simpa [err, hne] using hnone)
      · exact .inr (.inr ⟨rfl, rfl, by rw [scan_eq_firstLine, hs], rfl⟩)

theorem addrAfterRead_cases_line :
    addrAfterRead id (fun _ => 1) [49, 10] .eof [] = some [49] ∧
      ((∃ token e, firstScan (fun _ => 1) [49, 10] .eof = some (token, e) ∧ err e ≠ none ∧
          ([49] : GoString) = []) ∨
        (∃ line e, firstScan (fun _ => 1) [49, 10] .eof = some (some line, e) ∧ err e = none ∧
          [49] = id line) ∨
        (([49, 10] : List UInt8) = [] ∧ Ending.eof = .eof ∧
          firstScan (fun _ => 1) [49, 10] .eof = some (none, some .eof) ∧
            ([49] : GoString) = id [])) := by
  have h : addrAfterRead id (fun _ => 1) [49, 10] .eof [] = some [49] := rfl
  exact ⟨h, addrAfterRead_cases id _ h⟩

/-- A child that closes its stdout without writing a byte: the first `Scan` returns `false` with
only `io.EOF` recorded, so `Err()` is `nil`, and `run` stores `TrimSpace("")` into `s.addr`
whatever it held. -/
theorem addrAfterRead_emptyStdout (sizes : Nat → Nat) (addr : GoString) :
    firstScan sizes [] .eof = some (none, some .eof) ∧
      addrAfterRead trimSpace sizes [] .eof addr = some (trimSpace []) :=
  ⟨rfl, rfl⟩

end

end Scanner
end TailFS
