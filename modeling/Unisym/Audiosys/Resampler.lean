/-
# `Resampler` — `ResamplerStream` over a finite source

`ReadSamples` interpolates between two frames of the source; `phase` is the position between them in units
of 1/65536.  The source has a buffer of 4096 bytes, of which `source_buf` are the valid ones.  The stream is
one for which `IsValid` holds, and the destination of a request can be written.
-/
import Mathlib.Data.Nat.Notation

namespace Unisym.Audiosys

inductive AudioSampleFormat
  | U8
  | S16LE
  deriving DecidableEq

inductive AudioResult
  | OK
  | Failed
  | Unsupported
  | InvalidFormat
  | InvalidArgument
  | OutOfMemory
  | IoError
  | EndOfStream
  deriving DecidableEq

structure AudioFormat where
  sample_format : AudioSampleFormat
  channels : Nat
  sample_rate : Nat

/-! ## The source -/

/-- A finite `IAudioStream`: call number `n` delivers at most `piece n` bytes. -/
structure AudioStream where
  format : AudioFormat
  bytes : List UInt8
  piece : Nat → Nat
  calls : Nat
  piece_pos : ∀ n, 0 < piece n

def AudioStream.ReadSamples (source : AudioStream) (maxBytes : Nat) :
    AudioResult × List UInt8 × AudioStream :=
  if source.bytes = [] then (.EndOfStream, [], source)
  else
    let n := min maxBytes (source.piece source.calls)
    (.OK, source.bytes.take n,
      { source with bytes := source.bytes.drop n, calls := source.calls + 1 })

/-! ## Frames -/

def AudioFormat.is_16bit (format : AudioFormat) : Bool := format.sample_format = .S16LE

/-- `channels`, as a byte -/
def AudioFormat.channelCount (format : AudioFormat) : Nat :=
  if format.channels ≠ 0 then format.channels % 256 else 1

def AudioFormat.bytes_per_frame (format : AudioFormat) : Nat :=
  (if format.is_16bit then 2 else 1) * format.channelCount

/-- `(int16)(low | (high << 8))` -/
def int16 (low high : UInt8) : Int :=
  let n := low.toNat + 256 * high.toNat
  if n < 32768 then n else (n : Int) - 65536

def ClampS16 (val : Int) : Int :=
  if val > 32767 then 32767 else if val < -32768 then -32768 else val

def ClampU8 (val : Int) : Int :=
  if val > 255 then 255 else if val < 0 then 0 else val

/-- The left and the right sample of the frame at `src_ptr`. -/
def AudioFormat.decodeFrame (format : AudioFormat) (src_ptr : List UInt8) : Int × Int :=
  let at_ := fun i => src_ptr.getD i 0
  if format.is_16bit then
    if format.channelCount = 1 then
      let s := int16 (at_ 0) (at_ 1)
      (s, s)
    else (int16 (at_ 0) (at_ 1), int16 (at_ 2) (at_ 3))
  else
    if format.channelCount = 1 then
      let s := ((at_ 0).toNat : Int) - 128
      (s, s)
    else (((at_ 0).toNat : Int) - 128, ((at_ 1).toNat : Int) - 128)

/-- `(byte)(val & 0xFF)` -/
def lowByte (val : Int) : UInt8 := UInt8.ofNat (val % 256).toNat

/-- The bytes of a frame. -/
def AudioFormat.encodeFrame (format : AudioFormat) (interp : Int × Int) : List UInt8 :=
  if format.is_16bit then
    let out_l := ClampS16 interp.1
    let out_r := ClampS16 interp.2
    if format.channelCount = 1 then [lowByte out_l, lowByte (out_l >>> (8 : Nat))]
    else [lowByte out_l, lowByte (out_l >>> (8 : Nat)), lowByte out_r, lowByte (out_r >>> (8 : Nat))]
  else
    let out_l := ClampU8 (interp.1 + 128)
    let out_r := ClampU8 (interp.2 + 128)
    if format.channelCount = 1 then [lowByte out_l] else [lowByte out_l, lowByte out_r]

/-- The frame at `frac / 65536` of the way from `curr_frame` to `next_frame`. -/
def interpolate (curr_frame next_frame : Int × Int) (frac : Nat) : Int × Int :=
  (curr_frame.1 + ((next_frame.1 - curr_frame.1) * frac) >>> (16 : Nat),
    curr_frame.2 + ((next_frame.2 - curr_frame.2) * frac) >>> (16 : Nat))

/-! ## The resampler -/

structure ResamplerStream where
  source : AudioStream
  source_rate : Nat
  target_rate : Nat
  step : Nat
  phase : Nat
  source_buf : List UInt8
  source_buf_pos : Nat
  curr_frame : Int × Int
  next_frame : Int × Int
  has_frames : Bool
  source_eos : Bool

/-- `kSourceChunkSize` -/
def source_buf_cap : Nat := 4096

namespace ResamplerStream

def init (source : AudioStream) (targetRate : Nat) : ResamplerStream :=
  let source_rate := if source.format.sample_rate ≠ 0 then source.format.sample_rate else 44100
  let target_rate := if targetRate ≠ 0 then targetRate else 44100
  { source, source_rate, target_rate
    step := (source_rate <<< 16) / target_rate % 4294967296
    phase := 0
    source_buf := []
    source_buf_pos := 0
    curr_frame := (0, 0)
    next_frame := (0, 0)
    has_frames := false
    source_eos := false }

/-- `info.format` -/
def format (s : ResamplerStream) : AudioFormat := s.source.format

/-- `source_buf_pos + bytes_per_frame > source_buf_valid` -/
def lacking (s : ResamplerStream) : Bool :=
  s.source_buf_pos + s.format.bytes_per_frame > s.source_buf.length

theorem ReadSamples_shorter {source : AudioStream} {maxBytes : Nat}
    (hbytes : (source.ReadSamples maxBytes).2.1.length ≠ 0) :
    (source.ReadSamples maxBytes).2.2.bytes.length < source.bytes.length := by
  rw [AudioStream.ReadSamples] at hbytes ⊢
  split
  · rename_i hnil
    rw [if_pos hnil] at hbytes
    exact absurd rfl hbytes
  · rename_i hne
    rw [if_neg hne] at hbytes
    dsimp only at hbytes ⊢
    rw [List.length_take] at hbytes
    rw [List.length_drop]
    omega

/-- The loop of `FetchSourceFrame`: it goes on until there is a frame in the buffer, or the source has
ended. -/
def fillBuffer (s : ResamplerStream) : ResamplerStream :=
  if !s.lacking then s
  else if s.source_eos then s
  else
    let remaining := s.source_buf.drop s.source_buf_pos
    let reply := s.source.ReadSamples (source_buf_cap - remaining.length)
    if reply.1 ≠ .OK ∨ reply.2.1.length = 0 then
      { s with source := reply.2.2, source_buf := remaining, source_buf_pos := 0, source_eos := true }
    else
      fillBuffer { s with
        source := reply.2.2
        source_buf := remaining ++ reply.2.1
        source_buf_pos := 0 }
termination_by s.source.bytes.length
decreasing_by exact ReadSamples_shorter (not_or.mp ‹_›).2

def FetchSourceFrame (s : ResamplerStream) : Option (Int × Int) × ResamplerStream :=
  let s := s.fillBuffer
  if s.lacking then (none, s)
  else
    let src_ptr := s.source_buf.drop s.source_buf_pos
    (some (s.format.decodeFrame src_ptr),
      { s with source_buf_pos := s.source_buf_pos + s.format.bytes_per_frame })

/-- `while (advance > 0)`, with the `advance` that is left. -/
def skipFrames : (advance : Nat) → ResamplerStream → Nat × ResamplerStream
  | 0, s => (0, s)
  | advance + 1, s =>
      let s := { s with curr_frame := s.next_frame }
      match s.FetchSourceFrame with
      | (some frame, s) => skipFrames advance { s with next_frame := frame }
      | (none, s) =>
          let s := { s with next_frame := s.curr_frame }
          if s.source_eos then (advance + 1, s) else skipFrames advance s

/-- `while (frames_written < max_out_frames)` -/
def writeFrames : (max_out_frames : Nat) → ResamplerStream → List UInt8 × ResamplerStream
  | 0, s => ([], s)
  | max_out_frames + 1, s =>
      let frac := s.phase % 65536
      let out := s.format.encodeFrame (interpolate s.curr_frame s.next_frame frac)
      let phase := (s.phase + s.step) % 4294967296
      let (advance, s) := skipFrames (phase / 65536) { s with phase := phase % 65536 }
      if s.source_eos ∧ s.curr_frame = s.next_frame ∧ advance > 0 then (out, s)
      else
        let (rest, s) := writeFrames max_out_frames s
        (out ++ rest, s)

/-- The first two frames. -/
def firstFrames (s : ResamplerStream) : Option ResamplerStream :=
  match s.FetchSourceFrame with
  | (none, _) => none
  | (some frame, s) =>
      let s := { s with curr_frame := frame }
      match s.FetchSourceFrame with
      | (some next, s) => some { s with next_frame := next, phase := 0, has_frames := true }
      | (none, s) => some { s with next_frame := s.curr_frame, phase := 0, has_frames := true }

/-- `ReadSamples`, into a buffer of `maxBytes` bytes -/
def ReadSamples (s : ResamplerStream) (maxBytes : Nat) : AudioResult × List UInt8 × ResamplerStream :=
  if maxBytes = 0 then (.InvalidArgument, [], s)
  else
    let max_out_frames := maxBytes / s.format.bytes_per_frame
    if max_out_frames = 0 then (.InvalidArgument, [], s)
    else
      match (if s.has_frames then some s else s.firstFrames) with
      | none => (.EndOfStream, [], s.FetchSourceFrame.2)
      | some s =>
          let (out, s) := writeFrames max_out_frames s
          if out.length = 0 ∧ s.source_eos then (.EndOfStream, out, s) else (.OK, out, s)

/-! ## Requests -/

/-- The stream after `i` requests. -/
def after (s : ResamplerStream) (requests : Nat → Nat) : Nat → ResamplerStream
  | 0 => s
  | i + 1 => ((s.after requests i).ReadSamples (requests i)).2.2

/-- The result of a request. -/
def result (s : ResamplerStream) (requests : Nat → Nat) (i : Nat) : AudioResult :=
  ((s.after requests i).ReadSamples (requests i)).1

/-- What the requests before number `i` have written. -/
def output (s : ResamplerStream) (requests : Nat → Nat) : Nat → List UInt8
  | 0 => []
  | i + 1 => s.output requests i ++ ((s.after requests i).ReadSamples (requests i)).2.1

end ResamplerStream

end Unisym.Audiosys
