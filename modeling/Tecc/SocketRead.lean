import Tecc.Socket
import Tecc.BufferFile

/-! `TecSocket_read` over every split of a stream: the pieces arrive in the buffer of the socket
one after the other, and the destination gets the stream as one. -/
namespace Tecc.Socket

open Machine Block Buffer Object

variable {sock : TecSocket} {peer : Peer} {dst dst' b : TecBuffer} {bytes rest : List UInt8}

theorem written_nil (h : Roomy dst) : Written dst [] dst := by
  have hpos := h.pos_nonneg
  have hps := h.pos_le
  refine ⟨h, ?_, ?_, rfl, ?_, id⟩
  · simp
  · rw [List.length_nil]
    omega
  · exact (blit_nil _ _).symm

/-- Two writes are one write of both. -/
theorem written_append (h : Represented dst) (h₁ : Written dst bytes b)
    (h₂ : Written b rest dst') : Written dst (bytes ++ rest) dst' := by
  have hpos := h.pos_nonneg
  have hps := h.pos_le
  have hp₁ := h₁.pos_eq
  have hp₂ := h₂.pos_eq
  have hs₁ := h₁.size_eq
  have hs₂ := h₂.size_eq
  have hlength : (bytes ++ rest).length = bytes.length + rest.length := List.length_append
  refine ⟨h₂.toRoomy, ?_, ?_, h₂.block_size_eq.trans h₁.block_size_eq, ?_,
    fun hc => h₂.capacity_ne (h₁.capacity_ne hc)⟩
  · omega
  · omega
  · rw [h₂.contents_eq, h₁.contents_eq, hp₁,
      show (dst.pos + bytes.length).toNat = dst.pos.toNat + bytes.length by omega]
    refine blit_blit rest ?_
    rw [h.contents_length]
    omega

/-- A socket that can receive: it is open, and its buffer has memory. -/
structure Receives (sock : TecSocket) : Prop where
  opened : sock.fd ≠ -1
  capacity_pos : 0 < sock.buf.capacity
  block_length : sock.buf.block.length = sock.buf.capacity

/-- Every answer of `read` is a piece of the stream that fits the buffer, or its end. -/
theorem read_cases (h : Receives sock) (peer : Peer) :
    (peer.stream = [] ∧ read sock.fd peer sock.buf.capacity =
      if peer.errno = 0 then some [] else none) ∨
    ∃ bytes, read sock.fd peer sock.buf.capacity = some bytes ∧ bytes ≠ [] ∧
      bytes.length ≤ sock.buf.capacity := by
  have hfd := h.opened
  have hcap := h.capacity_pos
  rw [Socket.read, if_neg hfd, if_neg (by omega)]
  obtain ⟨pieces, errno, nonempty⟩ := peer
  cases pieces with
  | nil => exact .inl ⟨rfl, rfl⟩
  | cons piece pieces =>
    have hpiece : 0 < piece.length := List.length_pos_iff.mpr (nonempty piece List.mem_cons_self)
    refine .inr ⟨piece.take sock.buf.capacity, rfl, ?_, List.length_take_le _ _⟩
    apply List.length_pos_iff.mp
    rw [List.length_take]
    omega

theorem skip_errno (peer : Peer) (count : Nat) : (peer.skip count).errno = peer.errno := by
  unfold Peer.skip
  split <;> rfl

/-- One round of the loop: the piece goes through the buffer of the socket. -/
theorem round_spec (h : Receives sock) (hdst : Roomy dst) (hroom : dst.capacity ≠ 0)
    (hbytes : bytes.length ≤ sock.buf.capacity)
    (hfit : dst.pos + bytes.length < 9223372036854775808) :
    ∃ data b, memcpy_to sock.buf.data 0 bytes bytes.length = .ok data ∧
      TecBuffer_write true dst (data.getD []) bytes.length = .ok (b, bytes.length) ∧
      Written dst bytes b ∧
      Receives { sock with buf := { sock.buf with data := data } } := by
  have hcap := h.capacity_pos
  have hbl := h.block_length
  have hdata : sock.buf.data = some sock.buf.block := by
    cases hd : sock.buf.data with
    | none =>
      rw [TecBuffer.block, hd] at hbl
      simp at hbl
      omega
    | some block => simp [TecBuffer.block, hd]
  have hcpy : memcpy_to sock.buf.data 0 bytes bytes.length =
      .ok (some (blit sock.buf.block 0 bytes)) := by
    rw [hdata, memcpy_to_ok (Int.le_refl 0) (Nat.le_refl _) (by simp; omega)]
    simp
  have hlength : (blit sock.buf.block 0 bytes).length = sock.buf.capacity := by
    rw [length_blit (Nat.zero_le _)]
    omega
  obtain ⟨b, hw, hwritten⟩ := TecBuffer_write_spec hdst bytes hfit (.inl hroom)
  have htake : (blit sock.buf.block 0 bytes).take bytes.length = bytes := by simp [blit]
  refine ⟨_, b, hcpy, ?_, hwritten, h.opened, hcap, hlength⟩
  rw [Option.getD_some, TecBuffer_write_take (by omega), htake, hw]

/-- The loop delivers the whole stream, by induction on what is left of it. -/
theorem read_loop_spec (n : Nat) : ∀ {sock : TecSocket} {peer : Peer} {dst : TecBuffer},
    peer.stream.length = n → Receives sock → Roomy dst → dst.capacity ≠ 0 →
    dst.pos + n < 9223372036854775808 →
    ∃ sock' peer' dst', read_loop true sock peer dst = .ok (sock', peer', dst', peer.errno) ∧
      peer'.stream = [] ∧ Written dst peer.stream dst' := by
  induction n using Nat.strong_induction_on with
  | _ n ih =>
    intro sock peer dst hn hsock hdst hroom hfit
    rcases read_cases hsock peer with ⟨hend, hread⟩ | ⟨bytes, hread, hne, hbytes⟩
    · refine ⟨sock, peer, dst, ?_, hend, by rw [hend]; exact written_nil hdst⟩
      rw [read_loop]
      by_cases herrno : peer.errno = 0
      · rw [if_pos herrno] at hread
        split
        · rename_i hnone
          cases hnone.symm.trans hread
        · rename_i received hsome
          obtain rfl := Option.some.inj (hsome.symm.trans hread)
          rw [herrno]
          rfl
      · rw [if_neg herrno] at hread
        split
        · rw [read_errno, if_neg hsock.opened]
        · rename_i received hsome
          cases hsome.symm.trans hread
    · have hstream := stream_eq hread hne
      have hshrinks := read_shrinks hread hne
      have hlength := congrArg List.length hstream
      rw [List.length_append] at hlength
      obtain ⟨data, b, hcpy, hw, hwritten, hsock'⟩ :=
        round_spec hsock hdst hroom hbytes (by omega)
      have hpos := hwritten.pos_eq
      obtain ⟨sock', peer', dst', hloop, hrest, hwritten'⟩ :=
        @ih (peer.skip sock.buf.capacity).stream.length (by omega) _
          (peer.skip sock.buf.capacity) b rfl hsock' hwritten.toRoomy
          (hwritten.capacity_ne hroom) (by omega)
      refine ⟨sock', peer', dst', ?_, hrest, ?_⟩
      · rw [read_loop]
        split
        · rename_i hnone
          cases hnone.symm.trans hread
        · rename_i received hsome
          obtain rfl := Option.some.inj (hsome.symm.trans hread)
          rw [dif_neg hne, hcpy, ok_bind, hw, ok_bind]
          rw [skip_errno] at hloop
          exact hloop
      · rw [hstream]
        exact written_append hdst.toRepresented hwritten hwritten'

/-- What the caller of `TecSocket_read` finds: the received bytes stand from the cursor on, the
others are where they were, and the error tells how the stream ended. -/
structure Delivered (dst : TecBuffer) (bytes : List UInt8) (ending : Int) (dst' : TecBuffer)
    (error : Int) : Prop where
  byte : ∀ i, dst'.contents[i]? =
    if i < dst.pos.toNat then dst.contents[i]?
    else if i < dst.pos.toNat + bytes.length then bytes[i - dst.pos.toNat]?
    else dst.contents[i]?
  pos_eq : dst'.pos = dst.pos + bytes.length
  size_eq : dst'.size = max dst.size (dst.pos.toNat + bytes.length)
  error_eq : error = 0 ↔ ending = 0

/-- Whatever the pieces are in which a stream arrives, and whatever the buffer of the socket
holds of it at a time, a destination at any cursor gets the same bytes and the same error. -/
theorem read_independent_of_chunking (initial_size block_size : Nat) (hne : initial_size ≠ 0)
    (hi : initial_size < 18446744073709551616) (ops : List FileOp)
    (hfit : SpecAllowed MemFile.observe MemFile.Fits ⟨[], 0⟩ ops) (dst₀ dst : TecBuffer)
    (outputs : List Observation) (hinit : TecBuffer_init_ true initial_size block_size = .ok dst₀)
    (hrun : run observe dst₀ ops = .ok (dst, outputs)) (stream : List UInt8) (ending : Int)
    (hlong : dst.pos + stream.length < 9223372036854775808) :
    ∃ contents error, ∀ sock peer, Receives sock → peer.stream = stream → peer.errno = ending →
      ∃ sock' peer' dst', TecSocket_read true sock peer dst = .ok (sock', peer', dst', error) ∧
        peer'.stream = [] ∧ dst'.contents = contents ∧
        Delivered dst stream ending dst' error := by
  obtain ⟨buf, buf', hb, hrun', hr⟩ := runs_represent initial_size block_size hne hi ops hfit
  cases Except.ok.inj (hb.symm.trans hinit)
  cases Except.ok.inj (hrun'.symm.trans hrun)
  refine ⟨blit dst.contents dst.pos.toNat stream, ending, ?_⟩
  rintro sock peer hsock rfl rfl
  obtain ⟨sock', peer', dst', hloop, hrest, hwritten⟩ :=
    read_loop_spec peer.stream.length rfl hsock hr.toRoomy hr.capacity_ne hlong
  have hps := hr.pos_le
  have hpos := hr.pos_nonneg
  refine ⟨sock', peer', dst', hloop, hrest, hwritten.contents_eq, ?_, hwritten.pos_eq,
    hwritten.size_eq, Iff.rfl⟩
  intro i
  rw [hwritten.contents_eq]
  apply getElem?_blit
  rw [hr.contents_length]
  omega

/-- Three bytes in one piece, and in two of which a buffer of one byte cuts the second. -/
theorem read_independent_of_chunking_split :
    ∃ contents error,
      (∃ sock' peer' dst', TecSocket_read true ⟨3, some 1, ⟨some [0, 0, 0, 0], 0, 0, 4, 4⟩, ⟨1, 4⟩⟩
          ⟨[[1, 2, 3]], 104, by simp⟩ ⟨some [7, 0, 0, 0], 1, 1, 4, 4⟩ =
            .ok (sock', peer', dst', error) ∧
          dst'.contents = contents) ∧
      ∃ sock' peer' dst', TecSocket_read true ⟨3, some 1, ⟨some [0], 0, 0, 1, 1⟩, ⟨1, 1⟩⟩
          ⟨[[1], [2, 3]], 104, by simp⟩ ⟨some [7, 0, 0, 0], 1, 1, 4, 4⟩ =
            .ok (sock', peer', dst', error) ∧
          dst'.contents = contents := by
  obtain ⟨contents, error, hall⟩ := read_independent_of_chunking 4 4 (by decide) (by decide)
    [.write [7]] (by simp [SpecAllowed, MemFile.Fits]) ⟨some [0, 0, 0, 0], 0, 0, 4, 4⟩
    ⟨some [7, 0, 0, 0], 1, 1, 4, 4⟩ [⟨1, [], 1, 1, [7]⟩]
    (by simp [TecBuffer_init_, ensure_capacity, toSize, grown_capacity, raise_capacity_of_le,
      realloc_buffer, bind, Except.bind])
    (by simp [run, observe, FileOp.toOp, exec, TecBuffer_write, ensure_capacity, toSize, memcpy_to,
      blit, toLong, TecBuffer.contents, TecBuffer.block, bind, Except.bind])
    [1, 2, 3] 104 (by decide)
  refine ⟨contents, error, ?_, ?_⟩
  · obtain ⟨sock', peer', dst', hread, _, hcontents, _⟩ :=
      hall ⟨3, some 1, ⟨some [0, 0, 0, 0], 0, 0, 4, 4⟩, ⟨1, 4⟩⟩ ⟨[[1, 2, 3]], 104, by simp⟩
        ⟨by decide, by decide, rfl⟩ rfl rfl
    exact ⟨sock', peer', dst', hread, hcontents⟩
  · obtain ⟨sock', peer', dst', hread, _, hcontents, _⟩ :=
      hall ⟨3, some 1, ⟨some [0], 0, 0, 1, 1⟩, ⟨1, 1⟩⟩ ⟨[[1], [2, 3]], 104, by simp⟩
        ⟨by decide, by decide, rfl⟩ rfl rfl
    exact ⟨sock', peer', dst', hread, hcontents⟩

end Tecc.Socket
