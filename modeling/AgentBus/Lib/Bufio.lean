import Mathlib.Data.List.Basic
import Mathlib.Data.Nat.Notation

/-!
# Buffered writers over a file that may fail

`bufio.Writer` over a file: bytes are collected in a buffer and handed to the file when the buffer
is full, or on `Flush`; a write that does not fit an empty buffer goes to the file at once.  The
first error is remembered, and the writer then does nothing any more.

What the file does with the writes it is handed is given by a list, one entry for each: it takes all
the bytes, or fails after some of them.  A list that is too short stands for writes that succeed.

The specification is `Streams`: the file holds a prefix of everything that was written and, as
long as nothing has failed, the rest of it is in the buffer.

## Main definitions

* `Fault`, `Writer` — the file's answers, and the writer with its file.
* `Writer.write`, `Writer.flush`, `Writer.writeAll` — the operations.
* `Writer.Streams` — what they keep.
-/

namespace AgentBus.Bufio

/-- The answer of the file to a write: it takes all, or fails after `n` bytes. -/
inductive Fault where
  | none
  | after (n : ℕ)
  deriving DecidableEq, Repr

/-- The answer to the next write. -/
def next : List Fault → Fault
  | [] => .none
  | f :: _ => f

/-- A buffered writer, with what has reached its file. -/
structure Writer where
  size : ℕ
  file : List UInt8
  buf : List UInt8
  /-- The error the writer remembers. -/
  failed : Bool
  deriving DecidableEq, Repr

namespace Writer

/-- `NewWriterSize`, over a file with some content. -/
def new (size : ℕ) (file : List UInt8) : Writer := ⟨size, file, [], false⟩

/-- `Available`. -/
def available (w : Writer) : ℕ := w.size - w.buf.length

/-- `Flush`. -/
def flush (w : Writer) (fs : List Fault) : Writer × List Fault :=
  if w.failed ∨ w.buf = [] then (w, fs)
  else
    match next fs with
    | .none => ({ w with file := w.file ++ w.buf, buf := [] }, fs.tail)
    | .after n =>
      ({ w with file := w.file ++ w.buf.take n, buf := w.buf.drop n, failed := true }, fs.tail)

/-- A write that goes to the file at once; the buffer is empty. -/
def direct (w : Writer) (p : List UInt8) (fs : List Fault) : Writer × List Fault :=
  match next fs with
  | .none => ({ w with file := w.file ++ p }, fs.tail)
  | .after n => ({ w with file := w.file ++ p.take n, failed := true }, fs.tail)

/-- `Write`.  Its loop makes at most two rounds: one that fills and flushes a buffer that is in
use, and one that writes at once what still does not fit. -/
def write (w : Writer) (p : List UInt8) (fs : List Fault) : Writer × List Fault :=
  if w.failed then (w, fs)
  else if p.length ≤ w.available then ({ w with buf := w.buf ++ p }, fs)
  else if w.buf = [] then w.direct p fs
  else
    let r := flush { w with buf := w.buf ++ p.take w.available } fs
    if r.1.failed then r
    else if (p.drop w.available).length ≤ w.size then
      ({ r.1 with buf := p.drop w.available }, r.2)
    else r.1.direct (p.drop w.available) r.2

/-- Several writes, up to the first that fails. -/
def writeAll (w : Writer) : List (List UInt8) → List Fault → Writer × List Fault
  | [], fs => (w, fs)
  | p :: ps, fs =>
    let r := w.write p fs
    if r.1.failed then r else r.1.writeAll ps r.2

/-- `bs` is everything that was written: the file holds a prefix of it, and as long as nothing
has failed the rest of it is in the buffer. -/
structure Streams (w : Writer) (bs : List UInt8) : Prop where
  file : w.file <+: bs
  buf : w.failed = false → w.file ++ w.buf = bs

variable {w : Writer} {bs : List UInt8}

theorem streams_new (size : ℕ) (file : List UInt8) : (new size file).Streams file :=
  ⟨List.prefix_refl _, fun _ => List.append_nil _⟩

theorem Streams.mono {bs' : List UInt8} (h : w.Streams bs) (hfailed : w.failed = true)
    (hp : bs <+: bs') : w.Streams bs' :=
  ⟨h.file.trans hp, fun hf => by rw [hfailed] at hf; cases hf⟩

theorem Streams.flush (h : w.Streams bs) (fs : List Fault) : (w.flush fs).1.Streams bs := by
  unfold Writer.flush
  split
  · exact h
  · rename_i hor
    have hok : w.failed = false := by simpa using mt Or.inl hor
    have hbs := h.buf hok
    split
    · exact ⟨⟨[], (List.append_nil _).trans hbs⟩, fun _ => (List.append_nil _).trans hbs⟩
    · rename_i n _
      refine ⟨?_, by rintro ⟨⟩⟩
      rw [← hbs]
      exact (List.prefix_append_right_inj _).mpr (List.take_prefix n w.buf)

theorem Streams.direct (h : w.Streams bs) (hok : w.failed = false) (hbuf : w.buf = [])
    (p : List UInt8) (fs : List Fault) : (w.direct p fs).1.Streams (bs ++ p) := by
  have hbs := h.buf hok
  rw [hbuf, List.append_nil] at hbs
  unfold Writer.direct
  split
  · refine ⟨⟨[], (List.append_nil _).trans (congrArg (· ++ p) hbs)⟩, fun _ => ?_⟩
    simp only [hbuf, hbs, List.append_nil]
  · rename_i n _
    refine ⟨?_, by rintro ⟨⟩⟩
    rw [← hbs]
    exact (List.prefix_append_right_inj _).mpr (List.take_prefix n p)

/-- After a flush that did not fail the buffer is empty. -/
theorem buf_flush {fs : List Fault} (hok : (w.flush fs).1.failed = false) :
    (w.flush fs).1.buf = [] := by
  unfold Writer.flush at hok ⊢
  split
  · rename_i hor
    rw [if_pos hor] at hok
    have hok : w.failed = false := hok
    exact hor.resolve_left (by rw [hok]; rintro ⟨⟩)
  · rename_i hor
    rw [if_neg hor] at hok
    split
    · rfl
    · rename_i n hn
      simp [hn] at hok

/-- **What a write adds.** -/
theorem Streams.write (h : w.Streams bs) (p : List UInt8) (fs : List Fault) :
    (w.write p fs).1.Streams (bs ++ p) := by
  unfold Writer.write
  split
  · rename_i hfailed
    exact h.mono hfailed (List.prefix_append _ _)
  · rename_i hok
    have hok : w.failed = false := by simpa using hok
    have hbs := h.buf hok
    split
    · refine ⟨h.file.trans (List.prefix_append _ _), fun _ => ?_⟩
      simp only [← hbs, List.append_assoc]
    · split
      · rename_i hbuf
        exact h.direct hok hbuf p fs
      · -- The buffer is filled and flushed.
        have hfill : Streams { w with buf := w.buf ++ p.take w.available }
            (bs ++ p.take w.available) := by
          refine ⟨h.file.trans (List.prefix_append _ _), fun _ => ?_⟩
          simp only [← hbs, List.append_assoc]
        have hflush := hfill.flush fs
        have hrest : bs ++ p = bs ++ p.take w.available ++ p.drop w.available := by
          rw [List.append_assoc, List.take_append_drop]
        rw [hrest]
        by_cases hfailed :
            (Writer.flush { w with buf := w.buf ++ p.take w.available } fs).1.failed = true
        · simp only [hfailed, if_true]
          exact hflush.mono hfailed (List.prefix_append _ _)
        · have hok' := Bool.eq_false_iff.mpr hfailed
          have hbuf := buf_flush hok'
          simp only [hok', Bool.false_eq_true, if_false]
          split
          · refine ⟨hflush.file.trans (List.prefix_append _ _), fun _ => ?_⟩
            have hbs' := hflush.buf hok'
            rw [hbuf, List.append_nil] at hbs'
            simp only [hbs']
          · exact hflush.direct hok' hbuf _ _

/-- **What several writes add.** -/
theorem Streams.writeAll (h : w.Streams bs) (ps : List (List UInt8)) (fs : List Fault) :
    (w.writeAll ps fs).1.Streams (bs ++ ps.flatten) := by
  induction ps generalizing w bs fs with
  | nil => simpa [Writer.writeAll] using h
  | cons p ps ih =>
    have hp := h.write p fs
    rw [List.flatten_cons, ← List.append_assoc]
    by_cases hfailed : (w.write p fs).1.failed = true
    · simp only [Writer.writeAll, hfailed, if_true]
      exact hp.mono hfailed (List.prefix_append _ _)
    · simp only [Writer.writeAll, Bool.eq_false_iff.mpr hfailed, Bool.false_eq_true, if_false]
      exact ih hp _

/-- **Writes that overflow the buffer fail when the file does.** -/
theorem failed_writeAll (hok : w.failed = false) (hle : w.buf.length ≤ w.size)
    {ps : List (List UInt8)} (hlt : w.size < w.buf.length + ps.flatten.length) (n : ℕ)
    (fs : List Fault) : (w.writeAll ps (.after n :: fs)).1.failed = true := by
  induction ps generalizing w with
  | nil => simp only [List.flatten_nil, List.length_nil] at hlt; omega
  | cons p ps ih =>
    rw [List.flatten_cons, List.length_append] at hlt
    by_cases hfits : p.length ≤ w.available
    · -- Nothing reaches the file yet.
      have hwrite : w.write p (.after n :: fs) =
          ({ w with buf := w.buf ++ p }, .after n :: fs) := by
        simp [Writer.write, hok, hfits]
      simp only [Writer.writeAll, hwrite, hok, Bool.false_eq_true, if_false]
      rw [available] at hfits
      refine ih rfl ?_ ?_ <;> simp only [List.length_append] <;> omega
    · have hfailed : (w.write p (.after n :: fs)).1.failed = true := by
        by_cases hbuf : w.buf = []
        · simp [Writer.write, hok, hfits, hbuf, Writer.direct, next]
        · simp [Writer.write, hok, hfits, hbuf, Writer.flush, next]
      simp only [Writer.writeAll, hfailed, if_true]

/-! ## The file only grows -/

theorem file_flush (w : Writer) (fs : List Fault) : w.file <+: (w.flush fs).1.file := by
  unfold Writer.flush
  split
  · exact List.prefix_refl _
  · split <;> exact List.prefix_append _ _

theorem file_direct (w : Writer) (p : List UInt8) (fs : List Fault) :
    w.file <+: (w.direct p fs).1.file := by
  unfold Writer.direct
  split <;> exact List.prefix_append _ _

theorem file_write (w : Writer) (p : List UInt8) (fs : List Fault) :
    w.file <+: (w.write p fs).1.file := by
  unfold Writer.write
  split
  · exact List.prefix_refl _
  · split
    · exact List.prefix_refl _
    · split
      · exact file_direct w p fs
      · have hflush := file_flush { w with buf := w.buf ++ p.take w.available } fs
        simp only
        split
        · exact hflush
        · split
          · exact hflush
          · exact hflush.trans (file_direct _ _ _)

theorem file_writeAll (w : Writer) (ps : List (List UInt8)) (fs : List Fault) :
    w.file <+: (w.writeAll ps fs).1.file := by
  induction ps generalizing w fs with
  | nil => exact List.prefix_refl _
  | cons p ps ih =>
    have hp := file_write w p fs
    simp only [Writer.writeAll]
    split
    · exact hp
    · exact hp.trans (ih _ _)

end Writer

end AgentBus.Bufio
