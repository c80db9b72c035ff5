/-
# `ResamplerSpec` — output frame `k` lies at `k * step / 65536`

`AtFrame` is the invariant of the loops: the two frames that the stream holds are frames `i` and `i + 1` of
the source, and the buffer and the source together have the frames behind them.  How the bytes are cut into
pieces and requests does not enter.
-/
import Unisym.Audiosys.Resampler
import Mathlib.Order.Basic

namespace Unisym.Audiosys

open List

/-- Channels that the resampler is for. -/
def AudioFormat.Supported (format : AudioFormat) : Prop := format.channels = 1 ∨ format.channels = 2

theorem AudioFormat.bytes_per_frame_bounds {format : AudioFormat} (h : format.Supported) :
    0 < format.bytes_per_frame ∧ format.bytes_per_frame ≤ 4 := by
  rw [bytes_per_frame, channelCount]
  rcases h with h | h <;> rw [h] <;> split <;> decide

theorem AudioFormat.decodeFrame_append {format : AudioFormat} (h : format.Supported) {src_ptr : List UInt8}
    (hlen : format.bytes_per_frame ≤ src_ptr.length) (more : List UInt8) :
    format.decodeFrame (src_ptr ++ more) = format.decodeFrame src_ptr := by
  have hget : ∀ i, i < src_ptr.length → (src_ptr ++ more).getD i 0 = src_ptr.getD i 0 := fun i hi => by
    rw [getD_eq_getElem?_getD, getElem?_append_left hi, getD_eq_getElem?_getD]
  obtain ⟨sample_format, channels, sample_rate⟩ := format
  cases sample_format <;> rcases h with h | h <;> cases h
  · change 1 ≤ src_ptr.length at hlen
    change ((((src_ptr ++ more).getD 0 0).toNat : Int) - 128, (((src_ptr ++ more).getD 0 0).toNat : Int) - 128) =
      (((src_ptr.getD 0 0).toNat : Int) - 128, ((src_ptr.getD 0 0).toNat : Int) - 128)
    rw [hget 0 hlen]
  · change 2 ≤ src_ptr.length at hlen
    change ((((src_ptr ++ more).getD 0 0).toNat : Int) - 128, (((src_ptr ++ more).getD 1 0).toNat : Int) - 128) =
      (((src_ptr.getD 0 0).toNat : Int) - 128, ((src_ptr.getD 1 0).toNat : Int) - 128)
    rw [hget 0 (by omega), hget 1 hlen]
  · change 2 ≤ src_ptr.length at hlen
    change (int16 ((src_ptr ++ more).getD 0 0) ((src_ptr ++ more).getD 1 0),
      int16 ((src_ptr ++ more).getD 0 0) ((src_ptr ++ more).getD 1 0)) =
        (int16 (src_ptr.getD 0 0) (src_ptr.getD 1 0), int16 (src_ptr.getD 0 0) (src_ptr.getD 1 0))
    rw [hget 0 (by omega), hget 1 hlen]
  · change 4 ≤ src_ptr.length at hlen
    change (int16 ((src_ptr ++ more).getD 0 0) ((src_ptr ++ more).getD 1 0),
      int16 ((src_ptr ++ more).getD 2 0) ((src_ptr ++ more).getD 3 0)) =
        (int16 (src_ptr.getD 0 0) (src_ptr.getD 1 0), int16 (src_ptr.getD 2 0) (src_ptr.getD 3 0))
    rw [hget 0 (by omega), hget 1 (by omega), hget 2 (by omega), hget 3 hlen]

theorem AudioFormat.encodeFrame_ne {format : AudioFormat} {interp : Int × Int} :
    0 < (format.encodeFrame interp).length := by
  rw [encodeFrame]
  dsimp only
  split <;> split <;> exact Nat.succ_pos _

namespace ResamplerStream

variable {s s' : ResamplerStream}

/-! ## The buffer -/

/-- What has not been read as a frame: the bytes in the buffer, and those of the source. -/
def rest (s : ResamplerStream) : List UInt8 := s.source_buf.drop s.source_buf_pos ++ s.source.bytes

structure Buffered (s : ResamplerStream) : Prop where
  pos_le : s.source_buf_pos ≤ s.source_buf.length
  ended : s.source_eos = true → s.source.bytes = [] ∧ s.lacking = true

/-- Reading from the source touches nothing else. -/
structure SameFrames (s s' : ResamplerStream) : Prop where
  format : s'.format = s.format
  step : s'.step = s.step
  phase : s'.phase = s.phase
  curr_frame : s'.curr_frame = s.curr_frame
  next_frame : s'.next_frame = s.next_frame
  has_frames : s'.has_frames = s.has_frames

theorem lacking_iff : s.lacking = true ↔ s.source_buf.length < s.source_buf_pos + s.format.bytes_per_frame :=
  decide_eq_true_iff

theorem ReadSamples_format (source : AudioStream) (maxBytes : Nat) :
    (source.ReadSamples maxBytes).2.2.format = source.format := by
  rw [AudioStream.ReadSamples]
  split <;> rfl

/-- The source delivers some of its bytes, or it has ended. -/
theorem ReadSamples_bytes (source : AudioStream) (maxBytes : Nat) (hmax : 0 < maxBytes) :
    source.bytes = (source.ReadSamples maxBytes).2.1 ++ (source.ReadSamples maxBytes).2.2.bytes ∧
      (((source.ReadSamples maxBytes).1 ≠ .OK ∨ (source.ReadSamples maxBytes).2.1.length = 0) →
        source.bytes = []) := by
  rw [AudioStream.ReadSamples]
  split
  · rename_i hnil
    exact ⟨rfl, fun _ => hnil⟩
  · rename_i hne
    refine ⟨(take_append_drop _ _).symm, fun hdone => ?_⟩
    rcases hdone with hdone | hdone
    · exact absurd rfl hdone
    · dsimp only at hdone
      rw [length_take] at hdone
      have hpiece := source.piece_pos source.calls
      have hlen : 0 < source.bytes.length := length_pos_iff.mpr hne
      omega

/-- What is left of the buffer is less than a frame when the loop reads on. -/
theorem remaining_short (h : Buffered s) (hlacking : ¬ (!s.lacking) = true) :
    (s.source_buf.drop s.source_buf_pos).length < s.format.bytes_per_frame := by
  have hl : s.lacking = true := by simpa using hlacking
  have hpos := h.pos_le
  rw [lacking_iff] at hl
  rw [length_drop]
  omega

theorem fillBuffer_same (s : ResamplerStream) : SameFrames s s.fillBuffer := by
  induction s using fillBuffer.induct with
  | case1 s h =>
    rw [fillBuffer, if_pos h]
    exact ⟨rfl, rfl, rfl, rfl, rfl, rfl⟩
  | case2 s h heos =>
    rw [fillBuffer, if_neg h, if_pos heos]
    exact ⟨rfl, rfl, rfl, rfl, rfl, rfl⟩
  | case3 s h heos remaining reply hdone =>
    rw [fillBuffer, if_neg h, if_neg heos]
    refine (if_pos hdone).symm ▸ ⟨ReadSamples_format .., rfl, rfl, rfl, rfl, rfl⟩
  | case4 s h heos remaining reply hdone ih =>
    rw [fillBuffer, if_neg h, if_neg heos]
    refine (if_neg hdone).symm ▸ ⟨ih.format.trans (ReadSamples_format ..), ih.step, ih.phase,
      ih.curr_frame, ih.next_frame, ih.has_frames⟩

/-- The buffer holds a frame if there is one left, and else the source has ended. -/
theorem fillBuffer_spec (s : ResamplerStream) (hformat : s.format.Supported) (h : Buffered s) :
    Buffered s.fillBuffer ∧ s.fillBuffer.rest = s.rest ∧
      (s.fillBuffer.lacking = true ↔ s.rest.length < s.format.bytes_per_frame) ∧
      (s.fillBuffer.lacking = true → s.fillBuffer.source_eos = true) := by
  induction s using fillBuffer.induct with
  | case1 s hfull =>
    rw [fillBuffer, if_pos hfull]
    have hnot : ¬ s.lacking = true := by simpa using hfull
    refine ⟨h, rfl, iff_of_false hnot ?_, fun hl => absurd hl hnot⟩
    rw [lacking_iff] at hnot
    have hpos := h.pos_le
    rw [rest, length_append, length_drop]
    omega
  | case2 s hlacking heos =>
    rw [fillBuffer, if_neg hlacking, if_pos heos]
    have hl : s.lacking = true := by simpa using hlacking
    refine ⟨h, rfl, iff_of_true hl ?_, fun _ => heos⟩
    obtain ⟨hbytes, _⟩ := h.ended heos
    have hpos := h.pos_le
    rw [lacking_iff] at hl
    rw [rest, hbytes, append_nil, length_drop]
    omega
  | case3 s hlacking heos remaining reply hdone =>
    rw [fillBuffer, if_neg hlacking, if_neg heos]
    refine (if_pos hdone).symm ▸ ?_
    have hremaining := remaining_short h hlacking
    have hbounds := AudioFormat.bytes_per_frame_bounds hformat
    obtain ⟨hsplit, hend⟩ := ReadSamples_bytes s.source (source_buf_cap - remaining.length)
      (Nat.sub_pos_of_lt (Nat.lt_trans hremaining (Nat.lt_of_le_of_lt hbounds.2 (by decide))))
    have hnil := hend hdone
    have hsource : reply.2.2.bytes = [] := by
      rw [hnil] at hsplit
      exact (append_eq_nil_iff.mp hsplit.symm).2
    have hlacking' : lacking { s with
        source := reply.2.2, source_buf := remaining, source_buf_pos := 0, source_eos := true } = true := by
      rw [lacking_iff]
      show remaining.length < 0 + reply.2.2.format.bytes_per_frame
      rw [Nat.zero_add, ReadSamples_format]
      exact hremaining
    have hrest : s.rest = remaining := by rw [rest, hnil, append_nil]
    refine ⟨⟨Nat.zero_le _, fun _ => ⟨hsource, hlacking'⟩⟩, ?_, iff_of_true hlacking' ?_, fun _ => rfl⟩
    · rw [hrest, rest, drop_zero]
      show remaining ++ reply.2.2.bytes = _
      rw [hsource, append_nil]
    · rw [hrest]
      exact hremaining
  | case4 s hlacking heos remaining reply hdone ih =>
    rw [fillBuffer, if_neg hlacking, if_neg heos]
    refine (if_neg hdone).symm ▸ ?_
    have hremaining := remaining_short h hlacking
    have hbounds := AudioFormat.bytes_per_frame_bounds hformat
    obtain ⟨hsplit, hend⟩ := ReadSamples_bytes s.source (source_buf_cap - remaining.length)
      (Nat.sub_pos_of_lt (Nat.lt_trans hremaining (Nat.lt_of_le_of_lt hbounds.2 (by decide))))
    have hformat' : reply.2.2.format = s.format := ReadSamples_format ..
    obtain ⟨hbuf, hrest, hiff, heos'⟩ := ih (by rw [format, hformat']; exact hformat)
      ⟨Nat.zero_le _, fun htrue => absurd htrue heos⟩
    have hsame : rest { s with
        source := reply.2.2, source_buf := remaining ++ reply.2.1, source_buf_pos := 0 } = s.rest := by
      rw [rest, rest, hsplit, drop_zero, append_assoc]
    rw [hsame] at hrest hiff
    refine ⟨hbuf, hrest, hiff.trans ?_, heos'⟩
    show _ < reply.2.2.format.bytes_per_frame ↔ _
    rw [hformat']

theorem FetchSourceFrame_some (hformat : s.format.Supported) (h : Buffered s)
    (hlen : s.format.bytes_per_frame ≤ s.rest.length) :
    ∃ s', s.FetchSourceFrame = (some (s.format.decodeFrame s.rest), s') ∧ Buffered s' ∧
      s'.rest = s.rest.drop s.format.bytes_per_frame ∧ SameFrames s s' := by
  obtain ⟨hbuf, hrest, hiff, _⟩ := fillBuffer_spec s hformat h
  have hsame := fillBuffer_same s
  have hfull : ¬ s.fillBuffer.lacking = true := fun hl => absurd (hiff.mp hl) (Nat.not_lt.mpr hlen)
  have hframe : s.format.bytes_per_frame ≤ (s.fillBuffer.source_buf.drop s.fillBuffer.source_buf_pos).length := by
    rw [lacking_iff, hsame.format] at hfull
    rw [length_drop]
    omega
  refine ⟨{ s.fillBuffer with
      source_buf_pos := s.fillBuffer.source_buf_pos + s.fillBuffer.format.bytes_per_frame }, ?_, ⟨?_, ?_⟩, ?_,
    hsame.format, hsame.step, hsame.phase, hsame.curr_frame, hsame.next_frame, hsame.has_frames⟩
  · rw [FetchSourceFrame, if_neg hfull, hsame.format, ← hrest, rest,
      AudioFormat.decodeFrame_append hformat hframe]
  · rw [lacking_iff] at hfull
    exact Nat.not_lt.mp hfull
  · exact fun heos => absurd (hbuf.ended heos).2 hfull
  · rw [← hrest, rest, rest, drop_append_of_le_length hframe, drop_drop, hsame.format]

theorem FetchSourceFrame_none (hformat : s.format.Supported) (h : Buffered s)
    (hlen : s.rest.length < s.format.bytes_per_frame) :
    ∃ s', s.FetchSourceFrame = (none, s') ∧ Buffered s' ∧ s'.rest = s.rest ∧ s'.source_eos = true ∧
      SameFrames s s' := by
  obtain ⟨hbuf, hrest, hiff, heos⟩ := fillBuffer_spec s hformat h
  have hl := hiff.mpr hlen
  exact ⟨s.fillBuffer, by rw [FetchSourceFrame, if_pos hl], hbuf, hrest, heos hl, fillBuffer_same s⟩

/-! ## The frames of the source -/

section
variable {format : AudioFormat} {data : List UInt8} {N i : Nat}

/-- Frame `j` of the source; the last one is held. -/
def held (format : AudioFormat) (data : List UInt8) (N j : Nat) : Int × Int :=
  format.decodeFrame (data.drop (min j (N - 1) * format.bytes_per_frame))

/-- Output frame `k`. -/
def frameOut (format : AudioFormat) (data : List UInt8) (N step k : Nat) : List UInt8 :=
  format.encodeFrame (interpolate (held format data N (k * step / 65536))
    (held format data N (k * step / 65536 + 1)) (k * step % 65536))

theorem held_of_ge {j j' : Nat} (hj : N ≤ j + 1) (hj' : N ≤ j' + 1) :
    held format data N j = held format data N j' := by
  rw [held, held, Nat.min_eq_right (by omega), Nat.min_eq_right (by omega)]

/-- The stream holds frames `i` and `i + 1` of the source. -/
structure AtFrame (format : AudioFormat) (data : List UInt8) (N i : Nat) (s : ResamplerStream) : Prop where
  buffered : Buffered s
  format_eq : s.format = format
  curr : s.curr_frame = held format data N i
  next : s.next_frame = held format data N (i + 1)
  rest_eq : s.rest = data.drop (min (i + 2) N * format.bytes_per_frame)

theorem fetch_at (hformat : format.Supported) (hs : s.format = format) (hbuf : Buffered s)
    (hdata : data.length = N * format.bytes_per_frame) {M : Nat} (hM : M ≤ N)
    (hrest : s.rest = data.drop (M * format.bytes_per_frame)) :
    ∃ s', Buffered s' ∧ SameFrames s s' ∧
      ((M < N ∧ s.FetchSourceFrame = (some (held format data N M), s') ∧
          s'.rest = data.drop ((M + 1) * format.bytes_per_frame)) ∨
        (M = N ∧ s.FetchSourceFrame = (none, s') ∧ s'.source_eos = true ∧ s'.rest = s.rest)) := by
  subst hs
  have hpos := (AudioFormat.bytes_per_frame_bounds hformat).1
  have hlen : s.rest.length = (N - M) * s.format.bytes_per_frame := by
    rw [hrest, length_drop, hdata, Nat.sub_mul]
  rcases Nat.lt_or_ge M N with hlt | hge
  · obtain ⟨s', hs', hbuf', hrest', hsame⟩ := FetchSourceFrame_some hformat hbuf (by
      rw [hlen]
      exact Nat.le_mul_of_pos_left _ (by omega))
    refine ⟨s', hbuf', hsame, .inl ⟨hlt, ?_, ?_⟩⟩
    · rw [hs', hrest, held, Nat.min_eq_left (by omega)]
    · rw [hrest', hrest, drop_drop, Nat.succ_mul]
  · obtain rfl : M = N := Nat.le_antisymm hM hge
    obtain ⟨s', hs', hbuf', hrest', heos, hsame⟩ := FetchSourceFrame_none hformat hbuf (by
      rw [hlen, Nat.sub_self, Nat.zero_mul]
      exact hpos)
    exact ⟨s', hbuf', hsame, .inr ⟨rfl, hs', heos, hrest'⟩⟩

/-- Frames are skipped; when some are left, the last frame is held. -/
theorem skipFrames_spec (hformat : format.Supported) (hdata : data.length = N * format.bytes_per_frame) :
    ∀ (advance i : Nat) (s : ResamplerStream), AtFrame format data N i s →
      AtFrame format data N (i + advance) (skipFrames advance s).2 ∧
        (skipFrames advance s).2.step = s.step ∧ (skipFrames advance s).2.phase = s.phase ∧
        (skipFrames advance s).2.has_frames = s.has_frames ∧
        (0 < (skipFrames advance s).1 → N ≤ i + advance + 1)
  | 0, i, s, h => ⟨h, rfl, rfl, rfl, fun hlt => absurd hlt (Nat.lt_irrefl 0)⟩
  | advance + 1, i, s, h => by
    obtain ⟨s₁, hbuf₁, hsame, ⟨hlt, hs₁, hrest₁⟩ | ⟨heq, hs₁, heos, hrest₁⟩⟩ := fetch_at (N := N) hformat
      (s := { s with curr_frame := s.next_frame }) h.format_eq ⟨h.buffered.pos_le, h.buffered.ended⟩
      hdata (Nat.min_le_right (i + 2) N) h.rest_eq
    · rw [skipFrames]
      simp only [hs₁]
      have hmin : min (i + 2) N = i + 2 := Nat.min_eq_left (by omega)
      have hat : AtFrame format data N (i + 1)
          { s₁ with next_frame := held format data N (min (i + 2) N) } := by
        refine ⟨⟨hbuf₁.pos_le, hbuf₁.ended⟩, hsame.format.trans h.format_eq, hsame.curr_frame.trans h.next,
          ?_, ?_⟩
        · rw [hmin]
        · rw [show min (i + 1 + 2) N = min (i + 2) N + 1 by omega]
          exact hrest₁
      obtain ⟨hat', hstep, hphase, hhas, hleft⟩ := skipFrames_spec hformat hdata advance (i + 1) _ hat
      rw [show i + (advance + 1) = i + 1 + advance by omega]
      exact ⟨hat', hstep.trans hsame.step, hphase.trans hsame.phase, hhas.trans hsame.has_frames, hleft⟩
    · rw [skipFrames]
      simp only [hs₁]
      rw [if_pos heos]
      have hcurr : s₁.curr_frame = held format data N (i + 1) := hsame.curr_frame.trans h.next
      refine ⟨⟨⟨hbuf₁.pos_le, hbuf₁.ended⟩, hsame.format.trans h.format_eq, ?_, ?_, ?_⟩, hsame.step,
        hsame.phase, hsame.has_frames, fun _ => by omega⟩
      · exact hcurr.trans (held_of_ge (by omega) (by omega))
      · exact hcurr.trans (held_of_ge (by omega) (by omega))
      · rw [show min (i + (advance + 1) + 2) N = min (i + 2) N by omega]
        exact hrest₁.trans h.rest_eq

/-- After `k` output frames. -/
structure At (format : AudioFormat) (data : List UInt8) (N step k : Nat) (s : ResamplerStream) : Prop where
  atFrame : AtFrame format data N (k * step / 65536) s
  phase : s.phase = k * step % 65536
  step_eq : s.step = step
  has_frames : s.has_frames = true

/-- A request writes the next frames, at least one, and all that fit unless the last frame is reached. -/
theorem writeFrames_spec (hformat : format.Supported) (hdata : data.length = N * format.bytes_per_frame)
    {step : Nat} (hstep : step + 65535 < 4294967296) :
    ∀ (m k : Nat) (s : ResamplerStream), At format data N step k s →
      ∃ n, (writeFrames m s).1 = ((List.range' k n).flatMap (frameOut format data N step)) ∧
        At format data N step (k + n) (writeFrames m s).2 ∧ (0 < m → 0 < n) ∧
        (n = m ∨ (n < m ∧ N ≤ (k + n) * step / 65536 + 1))
  | 0, k, s, h => ⟨0, rfl, h, id, .inl rfl⟩
  | m + 1, k, s, h => by
    have hsucc : (k + 1) * step = k * step + step := Nat.succ_mul k step
    have hphase : (s.phase + s.step) % 4294967296 = k * step % 65536 + step := by
      rw [h.phase, h.step_eq, Nat.mod_eq_of_lt]
      have hlt := Nat.mod_lt (k * step) (show 0 < 65536 by decide)
      omega
    have hat : AtFrame format data N (k * step / 65536)
        { s with phase := (s.phase + s.step) % 4294967296 % 65536 } :=
      ⟨⟨h.atFrame.buffered.pos_le, h.atFrame.buffered.ended⟩, h.atFrame.format_eq, h.atFrame.curr,
        h.atFrame.next, h.atFrame.rest_eq⟩
    obtain ⟨hat', hstep', hphase', hhas, hleft⟩ := skipFrames_spec hformat hdata
      ((s.phase + s.step) % 4294967296 / 65536) _ _ hat
    rw [hphase, show k * step / 65536 + (k * step % 65536 + step) / 65536 = (k + 1) * step / 65536 by
      rw [hsucc]; omega] at hat' hleft
    have hout : s.format.encodeFrame (interpolate s.curr_frame s.next_frame (s.phase % 65536)) =
        frameOut format data N step k := by
      rw [h.atFrame.format_eq, h.atFrame.curr, h.atFrame.next, h.phase, Nat.mod_mod, frameOut]
    obtain ⟨advance, s₁, hskip⟩ : ∃ advance s₁, skipFrames ((s.phase + s.step) % 4294967296 / 65536)
        { s with phase := (s.phase + s.step) % 4294967296 % 65536 } = (advance, s₁) := ⟨_, _, rfl⟩
    rw [← hphase, hskip] at hat' hleft
    rw [hskip] at hstep' hphase' hhas
    have hat₁ : At format data N step (k + 1) s₁ := by
      refine ⟨hat', hphase'.trans ?_, hstep'.trans h.step_eq, hhas.trans h.has_frames⟩
      show (s.phase + s.step) % 4294967296 % 65536 = _
      rw [hphase, hsucc]
      omega
    rw [writeFrames]
    simp only [hskip, hout]
    split
    · rename_i hbreak
      refine ⟨1, ?_, hat₁, fun _ => Nat.one_pos, ?_⟩
      · rw [range'_one, flatMap_singleton]
      · rcases Nat.eq_zero_or_pos m with rfl | hm
        · exact .inl rfl
        · exact .inr ⟨Nat.succ_lt_succ hm, hleft hbreak.2.2⟩
    · obtain ⟨n, hn, hatn, _, hfull⟩ := writeFrames_spec hformat hdata hstep m (k + 1) s₁ hat₁
      refine ⟨n + 1, ?_, ?_, fun _ => Nat.succ_pos n, ?_⟩
      · rw [hn, range'_succ, flatMap_cons]
      · rwa [show k + (n + 1) = k + 1 + n by omega]
      · rw [show k + (n + 1) = k + 1 + n by omega]
        rcases hfull with hfull | hfull
        · exact .inl (by omega)
        · exact .inr ⟨by omega, hfull.2⟩

/-! ## Requests -/

/-- No frame has been read. -/
structure Fresh (format : AudioFormat) (data : List UInt8) (step : Nat) (s : ResamplerStream) : Prop where
  buffered : Buffered s
  format_eq : s.format = format
  rest_eq : s.rest = data
  step_eq : s.step = step
  has_frames : s.has_frames = false

theorem firstFrames_spec (hformat : format.Supported) (hdata : data.length = N * format.bytes_per_frame)
    (hN : 0 < N) {step : Nat} (h : Fresh format data step s) :
    ∃ s', s.firstFrames = some s' ∧ At format data N step 0 s' := by
  have hzero : 0 * step / 65536 = 0 := by rw [Nat.zero_mul, Nat.zero_div]
  obtain ⟨s₁, hbuf₁, hsame₁, ⟨_, hs₁, hrest₁⟩ | ⟨heq, _⟩⟩ := fetch_at (N := N) hformat h.format_eq h.buffered
    hdata (Nat.zero_le N) (by rw [h.rest_eq, Nat.zero_mul, drop_zero])
  · obtain ⟨s₂, hbuf₂, hsame₂, ⟨hlt, hs₂, hrest₂⟩ | ⟨heq, hs₂, _, hrest₂⟩⟩ := fetch_at (N := N) hformat
      (s := { s₁ with curr_frame := held format data N 0 }) (hsame₁.format.trans h.format_eq)
      ⟨hbuf₁.pos_le, hbuf₁.ended⟩ hdata hN hrest₁
    · refine ⟨{ s₂ with next_frame := held format data N (0 + 1), phase := 0, has_frames := true },
        by rw [firstFrames]; simp only [hs₁, hs₂], ?_, by rw [Nat.zero_mul],
        hsame₂.step.trans (hsame₁.step.trans h.step_eq), rfl⟩
      rw [hzero]
      refine ⟨⟨hbuf₂.pos_le, hbuf₂.ended⟩, hsame₂.format.trans (hsame₁.format.trans h.format_eq),
        hsame₂.curr_frame, rfl, ?_⟩
      rw [show min (0 + 2) N = 1 + 1 by omega]
      exact hrest₂
    · refine ⟨{ s₂ with next_frame := s₂.curr_frame, phase := 0, has_frames := true },
        by rw [firstFrames]; simp only [hs₁, hs₂], ?_, by rw [Nat.zero_mul],
        hsame₂.step.trans (hsame₁.step.trans h.step_eq), rfl⟩
      rw [hzero]
      refine ⟨⟨hbuf₂.pos_le, hbuf₂.ended⟩, hsame₂.format.trans (hsame₁.format.trans h.format_eq),
        hsame₂.curr_frame, hsame₂.curr_frame.trans (held_of_ge (by omega) (by omega)), ?_⟩
      rw [show min (0 + 2) N = 0 + 1 by omega]
      exact hrest₂.trans hrest₁
  · omega

/-- Between two requests, when `k` frames have been written. -/
def Reading (format : AudioFormat) (data : List UInt8) (N step k : Nat) (s : ResamplerStream) : Prop :=
  (k = 0 ∧ Fresh format data step s) ∨ At format data N step k s

theorem ReadSamples_spec (hformat : format.Supported) (hdata : data.length = N * format.bytes_per_frame)
    (hN : 0 < N) {step : Nat} (hstep : step + 65535 < 4294967296) {k maxBytes : Nat}
    (h : Reading format data N step k s) (hmax : format.bytes_per_frame ≤ maxBytes) :
    ∃ n, (s.ReadSamples maxBytes).2.1 = (List.range' k n).flatMap (frameOut format data N step) ∧
      Reading format data N step (k + n) (s.ReadSamples maxBytes).2.2 ∧
      (n = maxBytes / format.bytes_per_frame ∨
        (n < maxBytes / format.bytes_per_frame ∧ N ≤ (k + n) * step / 65536 + 1)) := by
  have hpos := (AudioFormat.bytes_per_frame_bounds hformat).1
  have hs : s.format = format := by
    rcases h with ⟨_, h⟩ | h
    · exact h.format_eq
    · exact h.atFrame.format_eq
  have hframes : 0 < maxBytes / format.bytes_per_frame := Nat.div_pos hmax hpos
  obtain ⟨s₁, hs₁, hat⟩ : ∃ s₁, (if s.has_frames then some s else s.firstFrames) = some s₁ ∧
      At format data N step k s₁ := by
    rcases h with ⟨rfl, h⟩ | h
    · rw [if_neg (by simp [h.has_frames])]
      exact firstFrames_spec hformat hdata hN h
    · exact ⟨s, if_pos h.has_frames, h⟩
  obtain ⟨n, hout, hat', hn, hfull⟩ := writeFrames_spec hformat hdata hstep
    (maxBytes / format.bytes_per_frame) k s₁ hat
  refine ⟨n, ?_, .inr ?_, hfull⟩
  · rw [ReadSamples, if_neg (by omega), hs]
    simp only [if_neg (Nat.ne_of_gt hframes), hs₁]
    split <;> exact hout
  · rw [ReadSamples, if_neg (by omega), hs]
    simp only [if_neg (Nat.ne_of_gt hframes), hs₁]
    split <;> exact hat'

/-- How many frames the requests before number `i` have room for. -/
def asked (format : AudioFormat) (requests : Nat → Nat) : Nat → Nat
  | 0 => 0
  | i + 1 => asked format requests i + requests i / format.bytes_per_frame

end

/-- The output is the interpolated source, whatever the pieces and the requests are: frames that follow one
another, in full requests until the last frame is held. -/
def Interpolates (source : AudioStream) (N targetRate : Nat) : Prop :=
  ∀ requests : Nat → Nat, (∀ i, source.format.bytes_per_frame ≤ requests i) → ∀ i, ∃ n,
    (init source targetRate).output requests i =
        (List.range n).flatMap (frameOut source.format source.bytes N (init source targetRate).step) ∧
      (n = asked source.format requests i ∨
        (n < asked source.format requests i ∧ N ≤ n * (init source targetRate).step / 65536 + 1))

/-- After finitely many requests every request finds the end. -/
def Ends (source : AudioStream) (targetRate : Nat) : Prop :=
  ∀ requests : Nat → Nat, (∀ i, source.format.bytes_per_frame ≤ requests i) →
    ∃ K, ∀ i, K ≤ i → (init source targetRate).result requests i = .EndOfStream

variable {source : AudioStream} {N targetRate : Nat}

theorem init_fresh (source : AudioStream) (targetRate : Nat) :
    Fresh source.format source.bytes (init source targetRate).step (init source targetRate) :=
  ⟨⟨Nat.le_refl 0, fun h => absurd h Bool.false_ne_true⟩, rfl, nil_append _, rfl, rfl⟩

theorem interpolates_of_pos (hformat : source.format.Supported)
    (hdata : source.bytes.length = N * source.format.bytes_per_frame) (hN : 0 < N)
    (hstep : (init source targetRate).step + 65535 < 4294967296) : Interpolates source N targetRate := by
  intro requests hrequests i
  suffices h : ∃ n, (init source targetRate).output requests i =
        (List.range n).flatMap (frameOut source.format source.bytes N (init source targetRate).step) ∧
      Reading source.format source.bytes N (init source targetRate).step n
        ((init source targetRate).after requests i) ∧
      (n = asked source.format requests i ∨
        (n < asked source.format requests i ∧ N ≤ n * (init source targetRate).step / 65536 + 1)) by
    obtain ⟨n, hout, _, hfull⟩ := h
    exact ⟨n, hout, hfull⟩
  induction i with
  | zero => exact ⟨0, rfl, .inl ⟨rfl, init_fresh source targetRate⟩, .inl rfl⟩
  | succ i ih =>
    obtain ⟨n, hout, hreading, hfull⟩ := ih
    obtain ⟨n', hout', hreading', hfull'⟩ := ReadSamples_spec hformat hdata hN hstep hreading (hrequests i)
    refine ⟨n + n', ?_, hreading', ?_⟩
    · rw [output, hout, hout', range_eq_range', range_eq_range', ← flatMap_append,
        ← range'_append_1, Nat.zero_add]
    · rw [asked]
      have hmono : n * (init source targetRate).step / 65536 ≤
          (n + n') * (init source targetRate).step / 65536 :=
        Nat.div_le_div_right (Nat.mul_le_mul_right _ (Nat.le_add_right n n'))
      rcases hfull with hfull | hfull <;> rcases hfull' with hfull' | hfull'
      · exact .inl (by omega)
      · exact .inr ⟨by omega, hfull'.2⟩
      · exact .inr ⟨by omega, by omega⟩
      · exact .inr ⟨by omega, hfull'.2⟩

/-! ## The end -/

theorem FetchSourceFrame_same (s : ResamplerStream) : SameFrames s s.FetchSourceFrame.2 := by
  have hsame := fillBuffer_same s
  rw [FetchSourceFrame]
  dsimp only
  split
  · exact hsame
  · exact ⟨hsame.format, hsame.step, hsame.phase, hsame.curr_frame, hsame.next_frame, hsame.has_frames⟩

/-- Two frames have been read. -/
def Live (format : AudioFormat) (s : ResamplerStream) : Prop := s.format = format ∧ s.has_frames = true

theorem skipFrames_live {format : AudioFormat} : ∀ (advance : Nat) (s : ResamplerStream), Live format s →
    Live format (skipFrames advance s).2
  | 0, _, h => h
  | advance + 1, s, h => by
    have hsame := FetchSourceFrame_same { s with curr_frame := s.next_frame }
    rw [skipFrames]
    obtain ⟨frame, s₁, hs₁⟩ : ∃ frame s₁, FetchSourceFrame { s with curr_frame := s.next_frame } =
      (frame, s₁) := ⟨_, _, rfl⟩
    rw [hs₁] at hsame
    have hlive : s₁.format = format ∧ s₁.has_frames = true :=
      ⟨hsame.format.trans h.1, hsame.has_frames.trans h.2⟩
    cases frame with
    | some frame =>
      simp only [hs₁]
      exact skipFrames_live advance _ hlive
    | none =>
      simp only [hs₁]
      split
      · exact hlive
      · exact skipFrames_live advance _ hlive

theorem writeFrames_live {format : AudioFormat} : ∀ (m : Nat) (s : ResamplerStream), Live format s →
    Live format (writeFrames m s).2 ∧ (0 < m → 0 < (writeFrames m s).1.length)
  | 0, _, h => ⟨h, fun hlt => absurd hlt (Nat.lt_irrefl 0)⟩
  | m + 1, s, h => by
    have hlive := skipFrames_live ((s.phase + s.step) % 4294967296 / 65536)
      { s with phase := (s.phase + s.step) % 4294967296 % 65536 } h
    have hout : 0 < (s.format.encodeFrame (interpolate s.curr_frame s.next_frame
      (s.phase % 65536))).length := AudioFormat.encodeFrame_ne
    rw [writeFrames]
    dsimp only
    split
    · exact ⟨hlive, fun _ => hout⟩
    · refine ⟨(writeFrames_live m _ hlive).1, fun _ => ?_⟩
      rw [length_append]
      exact Nat.add_pos_left hout _

/-- Every request of a stream that holds frames gets some. -/
theorem ReadSamples_live {format : AudioFormat} (hformat : format.Supported) {maxBytes : Nat}
    (hmax : format.bytes_per_frame ≤ maxBytes) (hs : s.format = format) {s₁ : ResamplerStream}
    (hfirst : (if s.has_frames then some s else s.firstFrames) = some s₁) (hlive : Live format s₁) :
    (s.ReadSamples maxBytes).1 = .OK ∧ Live format (s.ReadSamples maxBytes).2.2 := by
  have hpos := (AudioFormat.bytes_per_frame_bounds hformat).1
  have hframes : 0 < maxBytes / format.bytes_per_frame := Nat.div_pos hmax hpos
  obtain ⟨hlive', hout⟩ := writeFrames_live (maxBytes / format.bytes_per_frame) s₁ hlive
  rw [ReadSamples, if_neg (by omega), hs]
  simp only [if_neg (Nat.ne_of_gt hframes), hfirst]
  rw [if_neg fun hnone => Nat.ne_of_gt (hout hframes) hnone.1]
  exact ⟨rfl, hlive'⟩

theorem endless (hformat : source.format.Supported)
    (hdata : source.bytes.length = N * source.format.bytes_per_frame) (hN : 0 < N)
    {requests : Nat → Nat} (hrequests : ∀ i, source.format.bytes_per_frame ≤ requests i) (i : Nat) :
    (init source targetRate).result requests i = .OK ∧
      Live source.format ((init source targetRate).after requests (i + 1)) := by
  induction i with
  | zero =>
    obtain ⟨s₁, hs₁, hat⟩ := firstFrames_spec hformat hdata hN (init_fresh source targetRate)
    exact ReadSamples_live hformat (hrequests 0) rfl ((if_neg Bool.false_ne_true).trans hs₁)
      ⟨hat.atFrame.format_eq, hat.has_frames⟩
  | succ i ih => exact ReadSamples_live hformat (hrequests (i + 1)) ih.2.1 (if_pos ih.2.2) ih.2

/-- A stream that has found the end before the first frame. -/
structure Empty (format : AudioFormat) (s : ResamplerStream) : Prop where
  buffered : Buffered s
  format_eq : s.format = format
  rest_eq : s.rest = []
  has_frames : s.has_frames = false

theorem ReadSamples_empty {format : AudioFormat} (hformat : format.Supported) (h : Empty format s)
    {maxBytes : Nat} (hmax : format.bytes_per_frame ≤ maxBytes) :
    (s.ReadSamples maxBytes).1 = .EndOfStream ∧ (s.ReadSamples maxBytes).2.1 = [] ∧
      Empty format (s.ReadSamples maxBytes).2.2 := by
  have hpos := (AudioFormat.bytes_per_frame_bounds hformat).1
  have hframes : 0 < maxBytes / format.bytes_per_frame := Nat.div_pos hmax hpos
  obtain ⟨s₁, hs₁, hbuf, hrest, _, hsame⟩ := FetchSourceFrame_none (h.format_eq.symm ▸ hformat) h.buffered
    (by rw [h.rest_eq, h.format_eq]; exact hpos)
  have hfirst : (if s.has_frames then some s else s.firstFrames) = none := by
    rw [if_neg (by simp [h.has_frames]), firstFrames]
    simp only [hs₁]
  rw [ReadSamples, if_neg (by omega), h.format_eq]
  simp only [if_neg (Nat.ne_of_gt hframes), hfirst, hs₁]
  exact ⟨trivial, trivial, hbuf, hsame.format.trans h.format_eq, hrest.trans h.rest_eq,
    hsame.has_frames.trans h.has_frames⟩

theorem empty_after (hformat : source.format.Supported) (hnil : source.bytes = []) {requests : Nat → Nat}
    (hrequests : ∀ i, source.format.bytes_per_frame ≤ requests i) (i : Nat) :
    Empty source.format ((init source targetRate).after requests i) ∧
      (init source targetRate).output requests i = [] := by
  induction i with
  | zero =>
    have hfresh := init_fresh source targetRate
    exact ⟨⟨hfresh.buffered, hfresh.format_eq, hfresh.rest_eq.trans hnil, hfresh.has_frames⟩, rfl⟩
  | succ i ih =>
    obtain ⟨_, hout, hempty⟩ := ReadSamples_empty hformat ih.1 (hrequests i)
    exact ⟨hempty, by rw [output, ih.2, hout, append_nil]⟩

/-! ## The stream -/

/-- One sample, at the rate of the target. -/
def oneSample : AudioStream where
  format := ⟨.U8, 1, 44100⟩
  bytes := [200]
  piece _ := 1
  calls := 0
  piece_pos _ := Nat.one_pos

end ResamplerStream

end Unisym.Audiosys
