import AgentBus.Wal.Record

/-!
# Crashes of the main write-ahead log

A crash leaves a prefix of the file.  `OpenWithOptions` opens it for appending and never
truncates, so that after a restart new records follow whatever the crash left.

Two results say which prefixes the log survives.  A replay tolerates a torn record unless the
cut falls between two of the reads of that record, where `io.ReadFull` reports `io.EOF`; and
records appended after a restart come back only if the crash tore no record.

## Main definitions

* `appendAll`, `stored` — the file after a list of calls, and the records they store.
* `torn_tail_iff`, `append_after_crash_iff` — the two results.
-/

namespace AgentBus.Wal

open Bytes Framing

/-- The file after the calls of `AppendRecord`, each with the clock's time, on a log opened
over `file`; the first error if one is refused. -/
def appendAll (sum : List UInt8 → UInt32) (file : List UInt8) :
    List (Int64 × Record) → Except Error (List UInt8)
  | [] => .ok file
  | (now, r) :: ws =>
    match appendRecord sum now r with
    | .ok bs => appendAll sum (file ++ bs) ws
    | .error e => .error e

/-- The records the calls store. -/
def stored (ws : List (Int64 × Record)) : List Record := ws.map fun w => w.2.stamped w.1

/-- **Accepted calls append the encoding of what they store.** -/
theorem appendAll_eq_ok {sum : List UInt8 → UInt32} {file file' : List UInt8}
    {ws : List (Int64 × Record)} (h : appendAll sum file ws = .ok file') :
    file' = file ++ encodeAll (encode sum) (stored ws) ∧ ∀ r ∈ stored ws, Fits r := by
  induction ws generalizing file with
  | nil =>
    cases h
    simp [stored]
  | cons w ws ih =>
    obtain ⟨now, r⟩ := w
    rw [appendAll] at h
    split at h
    · rename_i bs hbs
      obtain ⟨hfits, rfl⟩ := appendRecord_eq_ok hbs
      obtain ⟨rfl, hrest⟩ := ih h
      refine ⟨by simp [stored], ?_⟩
      intro r' hr'
      rcases List.mem_cons.mp hr' with rfl | hr'
      · exact hfits
      · exact hrest r' hr'
    · cases h

theorem encode_ne_nil (sum : List UInt8 → UInt32) (r : Record) : encode sum r ≠ [] := by
  rw [← List.length_pos_iff, length_encode]
  omega

/-! ## Replaying what a crash left -/

section Cut

variable (sum : List UInt8 → UInt32) {rs : List Record} (h : ∀ r ∈ rs, Fits r)

include h

/-- Replay delivers the whole records and goes on with the fragment. -/
theorem replay_cut (opts : ReplayOptions) (n : ℕ) (rest : List UInt8) :
    replay sum opts ((encodeAll (encode sum) rs).take n ++ rest) =
      ((cut (encode sum) rs n).1 ++
          (replay sum opts (fragment (encode sum) (cut (encode sum) rs n).2 ++ rest)).1,
        (replay sum opts (fragment (encode sum) (cut (encode sum) rs n).2 ++ rest)).2) := by
  have hreads : ∀ r ∈ (cut (encode sum) rs n).1, (reader sum opts).Reads (encode sum) r :=
    fun r hr => reads_encode sum opts (h r (mem_of_mem_cut _ _ _ r hr))
  rw [take_encodeAll, List.append_assoc, replay, Reader.scan_append hreads]
  rfl

/-- Replay of the fragment: nothing is delivered, and the error depends on the place of the
cut. -/
theorem replay_fragment (opts : ReplayOptions) (n : ℕ) :
    ∃ err, replay sum opts (fragment (encode sum) (cut (encode sum) rs n).2) = ([], err) ∧
      (err = none ↔ ∀ r m, (cut (encode sum) rs n).2 = some (r, m) →
        opts.allowPartialTail = true ∧ ¬ ReadEdge r m) := by
  cases hcut : (cut (encode sum) rs n).2 with
  | none => exact ⟨none, Reader.scan_of_stop rfl, by simp⟩
  | some torn =>
    obtain ⟨r, m⟩ := torn
    obtain ⟨hmem, hpos, hlt⟩ := cut_torn hcut
    have hnext := nextRecord_torn sum opts (h r hmem) hpos hlt
    by_cases hedge : ReadEdge r m
    · rw [if_pos hedge] at hnext
      exact ⟨some .eof, Reader.scan_of_stop hnext, by simp [hedge]⟩
    · rw [if_neg hedge] at hnext
      refine ⟨_, Reader.scan_of_stop hnext, ?_⟩
      simp [hedge]

end Cut

/-- **Which prefixes replay survives.**  A tolerant replay of a prefix of the file delivers the
records in it without error, and a strict one errs exactly off the record boundaries, if and
only if the prefix does not end between two reads of a record. -/
theorem torn_tail_iff (sum : List UInt8 → UInt32) (ws : List (Int64 × Record))
    (file : List UInt8) (h : appendAll sum [] ws = .ok file) (n : ℕ) (hn : n ≤ file.length) :
    (replay sum ⟨true⟩ (file.take n) = ((cut (encode sum) (stored ws) n).1, none) ∧
        ((replay sum ⟨false⟩ (file.take n)).2 ≠ none ↔
          ¬ Boundary (encode sum) (stored ws) n)) ↔
      ∀ r m, (cut (encode sum) (stored ws) n).2 = some (r, m) → ¬ ReadEdge r m := by
  obtain ⟨rfl, hfits⟩ := appendAll_eq_ok h
  rw [List.nil_append] at hn ⊢
  obtain ⟨err, hfrag, herr⟩ := replay_fragment sum hfits ⟨true⟩ n
  obtain ⟨err', hfrag', herr'⟩ := replay_fragment sum hfits ⟨false⟩ n
  have htrue := replay_cut sum hfits ⟨true⟩ n []
  have hfalse := replay_cut sum hfits ⟨false⟩ n []
  rw [List.append_nil, List.append_nil, hfrag, List.append_nil] at htrue
  rw [List.append_nil, List.append_nil, hfrag', List.append_nil] at hfalse
  have hstrict : err' ≠ none ↔ ¬ Boundary (encode sum) (stored ws) n := by
    rw [← cut_eq_none_iff (fun r _ => encode_ne_nil sum r) hn, ne_eq, not_iff_not, herr',
      Option.eq_none_iff_forall_not_mem]
    simp
  rw [htrue, hfalse]
  simp only [Prod.mk.injEq, true_and, hstrict, iff_self, and_true, herr]

/-- A record of topic `t` whose payload is forty bytes long. -/
def longRecord : Record :=
  { timestamp := 1, topic := [0x74], key := [], partition := 0, payload := List.replicate 40 0 }

/-- A crash after the magic of the only record: the tolerant replay reports `io.EOF`. -/
theorem cut_after_magic_errs :
    ∃ file, appendAll crc32c [] [(0, longRecord)] = .ok file ∧
      (cut (encode crc32c) [longRecord] 2) = ([], some (longRecord, 2)) ∧
      replay crc32c ⟨true⟩ (file.take 2) = ([], some .eof) := by
  refine ⟨encode crc32c longRecord, rfl, by decide +kernel, ?_⟩
  exact Reader.scan_of_stop rfl

/-- A crash inside the header of the only record is tolerated. -/
theorem cut_in_header_tolerated :
    (replay crc32c ⟨true⟩ ((encode crc32c longRecord).take 10) = ([], none) ∧
      ((replay crc32c ⟨false⟩ ((encode crc32c longRecord).take 10)).2 ≠ none ↔
        ¬ Boundary (encode crc32c) [longRecord] 10)) := by
  have hcut : cut (encode crc32c) (stored [(0, longRecord)]) 10 = ([], some (longRecord, 10)) := by
    decide +kernel
  have h := (torn_tail_iff crc32c [(0, longRecord)] (encode crc32c longRecord) rfl
    10 (by decide +kernel)).mpr (by
      rw [hcut]
      rintro r m ⟨⟩
      decide +kernel)
  rw [hcut] at h
  exact h

/-! ## Appending after a crash -/

/-- The first byte of a record's timestamp. -/
def stampHead (r : Record) : Option UInt8 := (be 8 r.timestamp.toUInt64.toNat).head?

/-- A timestamp read from eight bytes holds these bytes. -/
theorem stampHead_of_field {r : Record} {bs : List UInt8} {lo : ℕ} (hlen : lo + 8 ≤ bs.length)
    (h : r.timestamp = .ofUInt64 (.ofNat (ofBe (field bs lo 8)))) : stampHead r = bs[lo]? := by
  have hfield : (field bs lo 8).length = 8 := by simp [field]; omega
  have hlt := ofBe_lt (field bs lo 8)
  rw [hfield] at hlt
  have hnat : r.timestamp.toUInt64.toNat = ofBe (field bs lo 8) := by
    rw [h]
    exact Nat.mod_eq_of_lt hlt
  have hbe := be_ofBe (field bs lo 8)
  rw [hfield] at hbe
  rw [stampHead, hnat, hbe, field, List.head?_take, if_neg (by decide), List.head?_drop]

/-- Where the first byte of a replayed record's timestamp comes from. -/
theorem nextRecord_stampHead {sum : List UInt8 → UInt32} {opts : ReplayOptions}
    {bs rest : List UInt8} {r : Record} (h : nextRecord sum opts bs = .item r rest) :
    (bs.take 2 = magic ∧ stampHead r = bs[4]?) ∨ (bs.take 2 ≠ magic ∧ stampHead r = bs[0]?) := by
  obtain ⟨start, tl, rfl, hlen, ⟨hstart, h⟩ | ⟨hstart, h⟩⟩ := nextRecord_eq_item h
  · obtain ⟨hd, tl, rfl, hhd, -, hts⟩ := readV2Record_eq_item h
    refine .inl ⟨by rw [← hlen, List.take_left, hstart], ?_⟩
    rw [stampHead_of_field (by omega) hts, List.getElem?_append_right (by omega),
      List.getElem?_append_left (by omega), hlen]
  · obtain ⟨hd, tl, rfl, hhd, -, hts⟩ := readV1Record_eq_item h
    refine .inr ⟨?_, ?_⟩
    · rwa [← hlen, List.take_left]
    · rw [stampHead_of_field (by simp; omega) hts, ← List.append_assoc]
      exact (List.getElem?_append_left (by simp; omega)).symm

/-- A record starts with the magic, the version, a zero and its timestamp. -/
theorem encode_start (sum : List UInt8 → UInt32) (r : Record) :
    ∃ tl, encode sum r = 0x47 :: 0x57 :: 3 :: 0 :: tl ∧ stampHead r = tl[0]? ∧ 0 < tl.length := by
  refine ⟨(encode sum r).drop 4, by simp [encode, magic, header], ?_, by simp; omega⟩
  have hhead : (be 8 r.timestamp.toUInt64.toNat).head? = (be 8 r.timestamp.toUInt64.toNat)[0]? :=
    List.head?_eq_getElem?
  simp [stampHead, encode, magic, header, hhead]

/-- The record after the whole ones starts with the fragment the crash left: its timestamp
starts with a byte of the format or with the one of the torn record. -/
theorem stampHead_of_fragment {sum : List UInt8 → UInt32} {opts : ReplayOptions}
    {r q q' : Record} {m : ℕ} (hpos : 0 < m) (hlt : m < (encode sum r).length)
    {rest : List UInt8}
    (h : nextRecord sum opts ((encode sum r).take m ++ encode sum q) = .item q' rest) :
    stampHead q' ∈ [some 0x47, some 0x57, some 3, stampHead r] := by
  obtain ⟨tr, hr, hrhead, hrlen⟩ := encode_start sum r
  obtain ⟨tq, hq, -, -⟩ := encode_start sum q
  rw [hr] at hlt h
  rw [hq] at h
  have hm : m = 1 ∨ m = 2 ∨ m = 3 ∨ m = 4 ∨ ∃ k, m = k + 5 := by
    by_cases h5 : m < 5
    · omega
    · exact .inr (.inr (.inr (.inr ⟨m - 5, by omega⟩)))
  rcases nextRecord_stampHead h with ⟨hmagic, hhead⟩ | ⟨hmagic, hhead⟩
  all_goals rcases hm with rfl | rfl | rfl | rfl | ⟨k, rfl⟩
  -- Only a fragment of one byte hides the magic.
  case inl.inl => simp [magic] at hmagic
  case inr.inl => simp [hhead]
  case inl.inr.inr.inr.inr =>
    cases tr with
    | nil => simp at hrlen
    | cons b tr => simp [hhead, hrhead]
  all_goals simp [hhead]

/-- Two records that differ in the first byte of their timestamps. -/
def probe (b : UInt64) : Record :=
  { timestamp := .ofUInt64 (b <<< 56), topic := [], key := [], partition := -1, payload := [] }

/-- **Which crashes the log survives.**  Whatever is appended to the file after a restart comes
back after the records the crash left whole if and only if the crash tore no record. -/
theorem append_after_crash_iff (sum : List UInt8 → UInt32) (ws : List (Int64 × Record))
    (file : List UInt8) (h : appendAll sum [] ws = .ok file) (n : ℕ) (hn : n ≤ file.length) :
    (∀ ws₂ file₂, appendAll sum (file.take n) ws₂ = .ok file₂ →
        replay sum ⟨true⟩ file₂ =
          ((cut (encode sum) (stored ws) n).1 ++ stored ws₂, none)) ↔
      Boundary (encode sum) (stored ws) n := by
  obtain ⟨rfl, hfits⟩ := appendAll_eq_ok h
  rw [List.nil_append] at hn ⊢
  rw [← cut_eq_none_iff (fun r _ => encode_ne_nil sum r) hn]
  constructor
  · intro hall
    by_contra htorn
    obtain ⟨⟨r, m⟩, hcut⟩ := Option.ne_none_iff_exists'.mp htorn
    obtain ⟨-, hpos, hlt⟩ := cut_torn hcut
    -- Append a record whose timestamp starts with a byte that the fragment cannot supply.
    obtain ⟨q, hq, hstamp⟩ : ∃ q : Record,
        stampHead q ∉ [some 0x47, some 0x57, some 3, stampHead r] ∧
        appendRecord sum 0 q = .ok (encode sum q) ∧ q.stamped 0 = q := by
      by_cases h1 : stampHead r = some 1
      · exact ⟨probe 2, by rw [h1]; decide, rfl, rfl⟩
      · refine ⟨probe 1, ?_, rfl, rfl⟩
        have hp : stampHead (probe 1) = some 1 := by decide
        rw [hp]
        simp [Ne.symm h1]
    have hrep := hall [(0, q)] ((encodeAll (encode sum) (stored ws)).take n ++ encode sum q)
      (by simp only [appendAll, hstamp.1])
    rw [replay_cut sum hfits, hcut] at hrep
    simp only [stored, List.map_cons, List.map_nil, hstamp.2, Prod.mk.injEq,
      List.append_cancel_left_eq] at hrep
    obtain ⟨rest, hnext⟩ := Reader.next_of_scan_cons (Prod.ext hrep.1 hrep.2)
    exact hq (stampHead_of_fragment hpos hlt hnext)
  · intro hcut ws₂ file₂ h₂
    obtain ⟨rfl, hfits₂⟩ := appendAll_eq_ok h₂
    rw [replay_cut sum hfits, hcut, fragment, List.nil_append, replay_encodeAll sum ⟨true⟩ hfits₂]

/-- A record of topic `t` with no payload. -/
def shortRecord : Record :=
  { timestamp := 1, topic := [0x74], key := [], partition := 0, payload := [] }

/-- A crash inside the payload of the only record, and one record appended after the restart:
replay takes it for the rest of the payload and reports nothing. -/
theorem append_after_crash_lost :
    ∃ file file₂, appendAll crc32c [] [(0, longRecord)] = .ok file ∧
      appendAll crc32c (file.take 30) [(0, shortRecord)] = .ok file₂ ∧
      (cut (encode crc32c) [longRecord] 30).1 = [] ∧
      replay crc32c ⟨true⟩ file₂ = ([], none) := by
  refine ⟨encode crc32c longRecord,
    (encode crc32c longRecord).take 30 ++ encode crc32c shortRecord, rfl, rfl, ?_, ?_⟩
  · decide +kernel
  · exact Reader.scan_of_stop (by decide +kernel)

/-- A crash between two records loses nothing that is appended later. -/
theorem append_after_clean_crash :
    ∃ file file₂, appendAll crc32c [] [(0, shortRecord), (0, longRecord)] = .ok file ∧
      appendAll crc32c (file.take 29) [(0, longRecord)] = .ok file₂ ∧
      replay crc32c ⟨true⟩ file₂ = ([shortRecord, longRecord], none) := by
  have hlen : 29 = (encodeAll (encode crc32c) [shortRecord]).length := by
    simp [shortRecord, body]
  refine ⟨_, _, rfl, rfl, ?_⟩
  have h := (append_after_crash_iff crc32c [(0, shortRecord), (0, longRecord)] _ rfl 29
    (by simp [shortRecord, body]; omega)).mpr ⟨1, by simp [stored], hlen⟩ [(0, longRecord)] _ rfl
  have hcut : (cut (encode crc32c) (stored [(0, shortRecord), (0, longRecord)]) 29).1 =
      [shortRecord] := by decide +kernel
  rw [hcut] at h
  exact h

end AgentBus.Wal
