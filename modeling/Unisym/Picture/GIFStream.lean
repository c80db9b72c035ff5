/-
# `GIFStream` — the bit reader over data sub-blocks

While the sub-blocks last, `ReadBits` gives the next bits of all their bytes as one number, and takes no
byte before it needs it; `SkipRemainingSubBlocks` goes behind the zero block, unless a sub-block has
just been used up.
-/
import Unisym.Picture.GIF
import Unisym.Library.BitCodes
import Unisym.Library.Chunks

namespace Unisym.Picture

open BitCodes Chunks List

/-- A data sub-block: its length and its bytes. -/
def subBlock (bytes : List UInt8) : List UInt8 := UInt8.ofNat bytes.length :: bytes

/-- A sub-block has a length of one to 255. -/
def BlocksOk (blocks : List (List UInt8)) : Prop := ∀ b ∈ blocks, 1 ≤ b.length ∧ b.length ≤ 255

theorem BlocksOk.ne_nil {blocks : List (List UInt8)} (h : BlocksOk blocks) : ∀ b ∈ blocks, b ≠ [] :=
  fun b hb hnil => absurd (hnil ▸ (h b hb).1) (by decide)

namespace GIFBitStream

/-- The reader has taken `bytes` bytes out of the blocks and handed on `used` bits of them. -/
structure Reads (data : List UInt8) (blocks : List (List UInt8)) (behind : List UInt8)
    (bytes used : Nat) (bs : GIFBitStream) : Prop where
  file : bs.data = data
  used_le : used ≤ 8 * bytes
  bytes_le : bytes ≤ blocks.flatten.length
  count : bs.bitsCount = (8 * bytes - used : Nat)
  buf : bs.bitBuf = buffered (blocks.flatten.take bytes) used
  left : data.drop bs.pos = (leftAfter [] blocks bytes).1 ++
    ((leftAfter [] blocks bytes).2.flatMap subBlock ++ 0 :: behind)
  remain : bs.subBlockRemain = (leftAfter [] blocks bytes).1.length

variable {data : List UInt8} {blocks : List (List UInt8)} {behind : List UInt8} {bytes used : Nat}
  {bs : GIFBitStream}
  (undefinedShift : UndefinedShift)

theorem getElem?_of_drop {α : Type} {l : List α} {i : Nat} {x : α} {r : List α}
    (h : l.drop i = x :: r) : l[i]? = some x ∧ l.drop (i + 1) = r := by
  constructor
  · rw [← Nat.add_zero i, ← getElem?_drop, h]
    rfl
  · rw [← tail_drop, h]
    rfl

theorem length_flatten_le : (blocks : List (List UInt8)) →
    blocks.flatten.length ≤ (blocks.flatMap subBlock).length
  | [] => Nat.le_refl _
  | b :: blocks => by
    have ih := length_flatten_le blocks
    simp only [flatten_cons, flatMap_cons, length_append, subBlock,
      length_cons]
    omega

theorem Reads.length_lt (h : Reads data blocks behind bytes used bs) (hblocks : BlocksOk blocks) :
    blocks.flatten.length < bytes + (data.length + 1) := by
  have hlength := congrArg List.length h.left
  have hflatten := congrArg List.length (leftAfter_flatten bytes [] blocks hblocks.ne_nil)
  have hle := length_flatten_le (leftAfter [] blocks bytes).2
  simp only [length_drop, length_append, length_cons, length_nil] at hlength hflatten
  omega

/-- The byte that is taken next, and the reader behind it. -/
theorem Reads.addByte (h : Reads data blocks behind bytes used bs) {x : UInt8}
    (hx : blocks.flatten.drop bytes = x :: blocks.flatten.drop (bytes + 1))
    (hcount : 8 * bytes < used + 24) {pos remain : Nat}
    (hleft : data.drop pos = (leftAfter [] blocks (bytes + 1)).1 ++
      ((leftAfter [] blocks (bytes + 1)).2.flatMap subBlock ++ 0 :: behind))
    (hremain : remain = (leftAfter [] blocks (bytes + 1)).1.length) :
    Reads data blocks behind (bytes + 1) used
      (({ bs with pos := pos, subBlockRemain := remain } : GIFBitStream).addByte undefinedShift x) := by
  have hused := h.used_le
  have hlt : bytes < blocks.flatten.length := by
    have := congrArg List.length hx
    rw [length_drop, length_cons] at this
    omega
  refine ⟨h.file, Nat.le_trans hused (by omega), hlt, ?_, ?_, hleft, hremain⟩
  · show bs.bitsCount + 8 = _
    rw [h.count]
    omega
  · have htake : blocks.flatten.take (bytes + 1) = blocks.flatten.take bytes ++ [x] := by
      rw [take_add_one, (getElem?_of_drop hx).1]
      rfl
    have hsum : used + (8 * bytes - used) = 8 * (blocks.flatten.take bytes).length := by
      rw [length_take]
      omega
    have hshift : x.toNat <<< (8 * bytes - used) < 2 ^ 32 := by
      rw [Nat.shiftLeft_eq]
      have hpow : 2 ^ (8 * bytes - used) ≤ 2 ^ 24 := Nat.pow_le_pow_right (by decide) (by omega)
      calc x.toNat * 2 ^ (8 * bytes - used) < 256 * 2 ^ (8 * bytes - used) :=
            Nat.mul_lt_mul_of_pos_right x.toNat_lt (Nat.two_pow_pos _)
        _ ≤ 256 * 2 ^ 24 := Nat.mul_le_mul_left _ hpow
        _ = 2 ^ 32 := by decide
    show bs.bitBuf ||| shiftIn undefinedShift x bs.bitsCount = _
    rw [htake, buffered_concat x hsum, h.buf, h.count, shiftIn, if_pos (Int.natCast_nonneg _),
      Int.toNat_natCast, Nat.mod_eq_of_lt hshift]

/-- As long as bytes are left the loop of `FillBits` takes the next one. -/
theorem Reads.fillLoop_step (h : Reads data blocks behind bytes used bs) (hblocks : BlocksOk blocks)
    (hmore : bytes < blocks.flatten.length) {n : Nat} (hn : n ≤ 12) (hcount : 8 * bytes < used + n)
    (fuel : Nat) :
    ∃ bs', Reads data blocks behind (bytes + 1) used bs' ∧
      fillLoop undefinedShift n (fuel + 1) bs = fillLoop undefinedShift n fuel bs' := by
  have hflatten := leftAfter_flatten bytes [] blocks hblocks.ne_nil
  have hsucc := leftAfter_succ bytes [] blocks
  have hsubset := leftAfter_subset bytes [] blocks
  have hbits : bs.bitsCount < (n : Int) := by
    have := h.used_le
    rw [h.count]
    omega
  have hfile := h.file
  have hleft := h.left
  have hremain := h.remain
  have hdrop := drop_eq_getElem_cons hmore
  rw [nil_append] at hflatten
  rcases hla : leftAfter [] blocks bytes with ⟨_ | ⟨x, chunk⟩, chunks⟩
  · rw [hla] at hflatten hsucc hsubset hleft hremain
    have hempty : bs.subBlockRemain = 0 := hremain
    cases chunks with
    | nil =>
      simp only [flatten_nil, append_nil] at hflatten
      rw [← hflatten] at hdrop
      cases hdrop
    | cons chunk chunks =>
      obtain ⟨hge, hle⟩ := hblocks chunk (hsubset mem_cons_self)
      obtain ⟨x, chunk, rfl⟩ := exists_cons_of_length_pos hge
      simp only [nil_append, flatten_cons, cons_append] at hflatten
      obtain ⟨hlength, hpos⟩ := getElem?_of_drop hleft
      obtain ⟨hbyte, hbehind⟩ := getElem?_of_drop hpos
      have htoNat : (UInt8.ofNat (chunk.length + 1)).toNat = chunk.length + 1 :=
        UInt8.toNat_ofNat_of_lt' (Nat.lt_succ_of_le hle)
      rw [← hflatten, List.cons.injEq] at hdrop
      have hx : blocks.flatten.drop bytes = x :: blocks.flatten.drop (bytes + 1) := by
        rw [← hflatten, hdrop.2]
      refine ⟨({ bs with pos := bs.pos + 1 + 1, subBlockRemain := chunk.length } :
        GIFBitStream).addByte undefinedShift x, h.addByte undefinedShift hx (by omega) ?_ ?_, ?_⟩
      · rw [hbehind, hsucc]
        show (chunk ++ chunks.flatMap subBlock) ++ 0 :: behind = _
        rw [append_assoc]
        rfl
      · rw [hsucc]
        rfl
      · rw [fillLoop, if_pos hbits, if_pos hempty]
        simp only [hfile, hlength, hbyte, length_cons, htoNat]
        rw [if_neg (Nat.succ_ne_zero _)]
        rfl
  · rw [hla] at hflatten hsucc hsubset hleft hremain
    obtain ⟨hget, hpos⟩ := getElem?_of_drop hleft
    simp only [cons_append] at hflatten
    rw [← hflatten, List.cons.injEq] at hdrop
    have hx : blocks.flatten.drop bytes = x :: blocks.flatten.drop (bytes + 1) := by
      rw [← hflatten, hdrop.2]
    refine ⟨({ bs with pos := bs.pos + 1, subBlockRemain := chunk.length } :
      GIFBitStream).addByte undefinedShift x, h.addByte undefinedShift hx (by omega) ?_ ?_, ?_⟩
    · rw [hpos, hsucc]
      rfl
    · rw [hsucc]
      rfl
    · rw [fillLoop, if_pos hbits, if_neg (by rw [hremain]; exact Nat.succ_ne_zero _)]
      simp only [hfile, hget, hremain, length_cons, Nat.add_sub_cancel]

theorem Reads.fillLoop (hblocks : BlocksOk blocks) {n : Nat} (hn : n ≤ 12) : (fuel bytes : Nat) →
    {bs : GIFBitStream} → Reads data blocks behind bytes used bs →
    used + n ≤ 8 * blocks.flatten.length → bytes ≤ (used + n + 7) / 8 →
    blocks.flatten.length < bytes + fuel →
    ∃ bs', fillLoop undefinedShift n fuel bs = some (true, bs') ∧
      Reads data blocks behind ((used + n + 7) / 8) used bs'
  | 0, bytes, bs, h, _, _, hfuel => absurd h.bytes_le (by omega)
  | fuel + 1, bytes, bs, h, henough, hle, hfuel => by
    by_cases hcount : 8 * bytes < used + n
    · obtain ⟨bs', hbs', hloop⟩ := h.fillLoop_step undefinedShift hblocks (by omega) hn hcount
        fuel
      rw [hloop]
      exact hbs'.fillLoop hblocks hn fuel (bytes + 1) henough (by omega) (by omega)
    · have hbytes : (used + n + 7) / 8 = bytes := by omega
      have hbits : ¬ bs.bitsCount < (n : Int) := by
        rw [h.count]
        omega
      rw [GIFBitStream.fillLoop, if_neg hbits, hbytes]
      exact ⟨bs, rfl, h⟩

theorem Reads.readBits (h : Reads data blocks behind ((used + 7) / 8) used bs) (hblocks : BlocksOk blocks)
    {n : Nat} (hpos : 0 < n) (hn : n ≤ 12) (henough : used + n ≤ 8 * blocks.flatten.length) :
    ∃ bs', bs.readBits undefinedShift n =
        some (some (bytesValue blocks.flatten / 2 ^ used % 2 ^ n), bs') ∧
      Reads data blocks behind ((used + n + 7) / 8) (used + n) bs' := by
  obtain ⟨filled, hfill, hreads⟩ := h.fillLoop undefinedShift hblocks hn (bs.data.length + 1) _
    henough (by omega) (h.file ▸ h.length_lt hblocks)
  have hlength : (blocks.flatten.take ((used + n + 7) / 8)).length = (used + n + 7) / 8 := by
    rw [length_take]
    omega
  have hvalue : filled.bitBuf &&& (2 ^ n - 1) = bytesValue blocks.flatten / 2 ^ used % 2 ^ n := by
    rw [hreads.buf, Nat.and_two_pow_sub_one_eq_mod,
      buffered_mod (by rw [hlength]; omega), take_append_drop]
  rw [GIFBitStream.readBits, if_neg (Nat.ne_of_gt hpos), fillBits, hfill]
  simp only [Option.bind_eq_bind, Option.bind_some, if_true, hvalue]
  refine ⟨_, rfl, hreads.file, by omega, hreads.bytes_le, ?_, ?_, hreads.left, hreads.remain⟩
  · show filled.bitsCount - n = _
    rw [hreads.count]
    omega
  · show filled.bitBuf >>> n = _
    rw [hreads.buf, Nat.shiftRight_eq_div_pow, buffered_div]

/-! ## Behind the zero block -/

/-- In the middle of a sub-block the reader goes behind the zero block. -/
theorem skipLoop_chunk : (chunks : List (List UInt8)) → BlocksOk chunks → (chunk : List UInt8) →
    chunk ≠ [] → (fuel : Nat) → chunks.length + 2 ≤ fuel → {bs : GIFBitStream} →
    bs.data.drop bs.pos = chunk ++ (chunks.flatMap subBlock ++ 0 :: behind) →
    bs.subBlockRemain = chunk.length →
    ∃ bs', skipLoop fuel bs = some bs' ∧ bs'.pos + behind.length = bs.data.length
  | chunks, hchunks, chunk, hne, fuel + 1, hfuel, bs, hleft, hremain => by
    have hpos : 0 < chunk.length := length_pos_iff.mpr hne
    have hlength := congrArg List.length hleft
    simp only [length_drop, length_append, length_cons] at hlength
    have hnext : bs.data.drop (bs.pos + chunk.length) =
        chunks.flatMap subBlock ++ 0 :: behind := by
      rw [← drop_drop, hleft, drop_left]
    rw [skipLoop, if_pos ⟨hremain ▸ hpos, by omega⟩]
    simp only [hremain]
    cases chunks with
    | nil =>
      obtain ⟨hget, hend⟩ := getElem?_of_drop hnext
      obtain ⟨fuel, rfl⟩ : ∃ k, fuel = k + 1 := ⟨fuel - 1, by simp at hfuel; omega⟩
      rw [hget]
      refine ⟨{ bs with pos := bs.pos + chunk.length + 1, subBlockRemain := 0 }, ?_, ?_⟩
      · exact if_neg fun h => absurd h.1 (Nat.lt_irrefl 0)
      · simp only [flatMap_nil, length_nil] at hlength
        dsimp only
        omega
    | cons next chunks =>
      obtain ⟨hge, hle⟩ := hchunks next mem_cons_self
      obtain ⟨hget, hend⟩ := getElem?_of_drop hnext
      have htoNat : (UInt8.ofNat next.length).toNat = next.length :=
        UInt8.toNat_ofNat_of_lt' (Nat.lt_succ_of_le hle)
      rw [hget]
      dsimp only
      rw [htoNat]
      exact skipLoop_chunk chunks (fun b hb => hchunks b (mem_cons_of_mem _ hb)) next
        (length_pos_iff.mp hge) fuel (by simp at hfuel; omega)
        (by rw [hend, append_eq, append_eq, append_assoc]; rfl) rfl

theorem length_le_flatMap : (blocks : List (List UInt8)) →
    blocks.length ≤ (blocks.flatMap subBlock).length
  | [] => Nat.le_refl _
  | b :: blocks => by
    have ih := length_le_flatMap blocks
    simp only [flatMap_cons, length_append, subBlock, length_cons]
    omega

/-- `SkipRemainingSubBlocks` goes behind the zero block unless a sub-block has just been used up. -/
theorem Reads.skip (h : Reads data blocks behind bytes used bs) (hblocks : BlocksOk blocks) :
    ∃ bs', bs.skipRemainingSubBlocks = some bs' ∧
      (bs'.pos + behind.length = data.length ↔ (leftAfter [] blocks bytes).1 ≠ []) := by
  have hleft := h.left
  have hremain := h.remain
  have hsubset := leftAfter_subset bytes [] blocks
  generalize leftAfter [] blocks bytes = left at hleft hremain hsubset ⊢
  obtain ⟨chunk, chunks⟩ := left
  have hlength := congrArg List.length hleft
  have hchunks := length_le_flatMap chunks
  simp only [length_drop, length_append, length_cons] at hlength
  rw [skipRemainingSubBlocks, h.file]
  by_cases hne : chunk = []
  · refine ⟨bs, ?_, iff_of_false (fun hend => ?_) (not_not.mpr hne)⟩
    · exact if_neg fun hpos => absurd (hremain ▸ hpos.1) (by simp [hne])
    · rw [hne, length_nil] at hlength
      omega
  · have hpos : 0 < chunk.length := length_pos_iff.mpr hne
    obtain ⟨bs', hskip, hend⟩ := skipLoop_chunk chunks (fun b hb => hblocks b (hsubset hb)) chunk hne
      (data.length + 1) (by omega) (h.file.symm ▸ hleft) hremain
    exact ⟨bs', hskip, iff_of_true (h.file ▸ hend) hne⟩

/-! ## Any input -/

/-- How much a reader can still do. -/
def weight (bs : GIFBitStream) : Nat := 20 * (bs.data.length - bs.pos) + bs.bitsCount.toNat

/-- `FillBits` returns, and where it is not done at once it uses up input. -/
theorem fillLoop_total {n : Nat} : (fuel : Nat) → (bs : GIFBitStream) →
    bs.data.length - bs.pos < fuel →
    ∃ filled bs', fillLoop undefinedShift n fuel bs = some (filled, bs') ∧ bs'.data = bs.data ∧
      (filled = true → n ≤ bs.bitsCount ∧ bs' = bs ∨
        bs.pos < bs'.pos ∧ bs'.pos ≤ bs.data.length ∧ bs'.bitsCount < n + 8)
  | fuel + 1, bs, hfuel => by
    -- a byte taken behind a byte of the file
    have hbyte : ∀ (b : UInt8) (bs' : GIFBitStream), bs'.data = bs.data → bs.pos ≤ bs'.pos →
        bs'.bitsCount = bs.bitsCount → bs.bitsCount < n → bs'.data[bs'.pos]? = some b →
        ∃ filled bs'', fillLoop undefinedShift n fuel ({ bs' with
            pos := bs'.pos + 1
            subBlockRemain := bs'.subBlockRemain - 1 }.addByte undefinedShift b) =
          some (filled, bs'') ∧ bs''.data = bs.data ∧
          (filled = true → n ≤ bs.bitsCount ∧ bs'' = bs ∨
            bs.pos < bs''.pos ∧ bs''.pos ≤ bs.data.length ∧ bs''.bitsCount < n + 8) := by
      intro b bs' hdata hpos hcount hlt hget
      have hend : bs'.pos < bs.data.length := hdata ▸ (List.getElem?_eq_some_iff.mp hget).1
      obtain ⟨filled, bs'', hloop, hdata'', hfilled⟩ := fillLoop_total fuel ({ bs' with
        pos := bs'.pos + 1
        subBlockRemain := bs'.subBlockRemain - 1 }.addByte undefinedShift b) (by
          show bs'.data.length - (bs'.pos + 1) < fuel
          rw [hdata]
          omega)
      refine ⟨filled, bs'', hloop, hdata''.trans hdata, fun h => .inr ?_⟩
      rcases hfilled h with ⟨_, rfl⟩ | ⟨hpos'', hend'', hcount''⟩
      · refine ⟨Nat.lt_succ_of_le hpos, hend, ?_⟩
        show bs'.bitsCount + 8 < _
        omega
      · exact ⟨Nat.lt_of_le_of_lt hpos (Nat.lt_of_succ_lt hpos''), hdata ▸ hend'', hcount''⟩
    rw [fillLoop]
    split
    case isFalse hdone => exact ⟨true, bs, rfl, rfl, fun _ => .inl ⟨Int.not_lt.mp hdone, rfl⟩⟩
    case isTrue hcount =>
      split
      case isFalse =>
        cases hget : bs.data[bs.pos]? with
        | none => exact ⟨false, bs, rfl, rfl, nofun⟩
        | some b => exact hbyte b bs rfl (Nat.le_refl _) rfl hcount hget
      case isTrue =>
        cases hget : bs.data[bs.pos]? with
        | none => exact ⟨false, bs, rfl, rfl, nofun⟩
        | some length =>
          have hend := (List.getElem?_eq_some_iff.mp hget).1
          dsimp only
          split
          case isTrue =>
            refine ⟨true, _, rfl, rfl, fun _ => .inr ⟨Nat.lt_succ_self _, hend, ?_⟩⟩
            show bs.bitsCount + 8 < _
            omega
          case isFalse =>
            cases hget' : bs.data[bs.pos + 1]? with
            | none => exact ⟨false, _, rfl, rfl, nofun⟩
            | some b =>
              let bs' : GIFBitStream :=
                { bs with pos := bs.pos + 1, subBlockRemain := length.toNat }
              exact hbyte b bs' rfl (Nat.le_succ _) rfl hcount hget'

theorem skipLoop_total : (fuel : Nat) → (bs : GIFBitStream) → bs.data.length - bs.pos < fuel →
    ∃ bs', skipLoop fuel bs = some bs'
  | fuel + 1, bs, hfuel => by
    rw [skipLoop]
    split
    case isTrue hmore =>
      cases hget : bs.data[bs.pos + bs.subBlockRemain]? with
      | none =>
        simp only [hget]
        exact skipLoop_total fuel _ (by dsimp only; omega)
      | some length =>
        simp only [hget]
        exact skipLoop_total fuel _ (by dsimp only; omega)
    case isFalse => exact ⟨bs, rfl⟩

theorem skip_total (bs : GIFBitStream) : ∃ bs', bs.skipRemainingSubBlocks = some bs' :=
  skipLoop_total _ bs (by omega)

/-- `ReadBits` returns; a code is in range, and uses up input or bits. -/
theorem readBits_total (bs : GIFBitStream) {n : Nat} (hpos : 0 < n) :
    ∃ code bs', bs.readBits undefinedShift n = some (code, bs') ∧
      ∀ k ∈ code, k < 2 ^ n ∧ bs'.weight < bs.weight := by
  obtain ⟨filled, bs', hfill, hdata, hfilled⟩ :=
    fillLoop_total undefinedShift (bs.data.length + 1) bs (n := n) (by omega)
  rw [readBits, if_neg (Nat.ne_of_gt hpos), fillBits, hfill]
  cases filled with
  | false => exact ⟨none, bs', rfl, nofun⟩
  | true =>
    refine ⟨_, _, rfl, ?_⟩
    rintro k ⟨⟩
    refine ⟨?_, ?_⟩
    · rw [Nat.and_two_pow_sub_one_eq_mod]
      exact Nat.mod_lt _ (Nat.two_pow_pos n)
    · simp only [weight, hdata]
      rcases hfilled rfl with ⟨hle, rfl⟩ | ⟨hlt, hend, hcount⟩ <;> omega

end GIFBitStream

end Unisym.Picture
