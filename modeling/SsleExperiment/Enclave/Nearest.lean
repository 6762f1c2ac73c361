import SsleExperiment.Enclave.Profiles

/-! # Nearest codewords

`Decode` looks for the way back from the cheapest of all states, while `Encode`
ends in the empty register. What it decodes is therefore emitted nearest to the
block with some two last inputs, which need not be the flushing bits. The decoded
message is encoded nearest to the block up to a slack of two, and without slack
exactly when some message is nearest in both ways
(`Ssle.PPRF.nearest_depuncturing_iff`).
-/

namespace Ssle.PPRF

/-- No message of the same length is encoded nearer to `w` by more than the
slack. -/
def Nearest (slack : Nat) (w m : Str) : Prop :=
  ∀ m' code code', Binary m' → m'.length = m.length → codec.encode m = .ok code →
    codec.encode m' = .ok code' → hammingDistance w code ≤ hammingDistance w code' + slack

/-- With some two last inputs in place of the flushing bits, `m` is emitted
nearest to `w` among all input sequences. -/
def NearestUnflushed (w m : Str) : Prop :=
  ∃ ending : List Bool, ending.length = 2 ∧ ∀ inputs : List Bool, inputs.length = m.length + 2 →
    hammingDistance w (codec.encoder.emit codec.start (toBits m ++ ending)) ≤
      hammingDistance w (codec.encoder.emit codec.start inputs)

/-! ## Blocks -/

/-- The symbols are the pairs of bits. -/
theorem mem_pairs {symbol : Str} (binary : Binary symbol) (size : symbol.length = 2) :
    symbol ∈ pairs := by
  obtain ⟨c, d, rfl⟩ := List.length_eq_two.mp size
  have first := binary c List.mem_cons_self
  have second := binary d (List.mem_cons_of_mem c List.mem_cons_self)
  rcases first with rfl | rfl <;> rcases second with rfl | rfl <;> decide

/-- A block cut into its symbols, the last two of which stand against the
flushing bits. -/
structure Split (w : Str) (k : Nat) (received : List Str) (first second : Str) : Prop where
  size : w.length = (k + 2) * 2
  short : k * 2 + 9 ≤ intMax
  symbols : codec.symbols w = received ++ [first, second]
  count : received.length = k
  known : ∀ symbol ∈ received ++ [first, second], symbol ∈ pairs

/-- A string that is long enough has two last symbols. -/
theorem exists_split {w : Str} (binary : Binary w) {k : Nat} (size : w.length = (k + 2) * 2)
    (short : k * 2 + 9 ≤ intMax) : ∃ received first second, Split w k received first second := by
  have count : (codec.symbols w).length = k + 2 := codec.length_symbols_of_mul size
  have known : ∀ symbol ∈ codec.symbols w, symbol ∈ pairs := by
    intro symbol member
    apply mem_pairs ?_ (codec.length_of_mem_symbols member)
    intro c inside
    apply binary
    rw [← codec.flatten_symbols size]
    exact List.mem_flatten.mpr ⟨symbol, member, inside⟩
  have rest : ((codec.symbols w).drop k).length = 2 := by
    rw [List.length_drop, count, Nat.add_sub_cancel_left]
  obtain ⟨first, second, last⟩ := List.length_eq_two.mp rest
  have whole : codec.symbols w = (codec.symbols w).take k ++ [first, second] := by
    rw [← last, List.take_append_drop]
  have front : ((codec.symbols w).take k).length = k := by
    rw [List.length_take, count]
    omega
  exact ⟨_, first, second, size, short, whole, front, whole ▸ known⟩

variable {w : Str} {k : Nat} {received : List Str} {first second : Str}

/-- The message is read off on the way back from the state before the last two
symbols. -/
theorem Split.decode_eq (split : Split w k received first second) :
    codec.decode w = (trellis.traceback (columns received)
      (wayBack intMax (metrics received) first second)).reverse.map bitChar := by
  have regrouped : codec.symbols w = received ++ [first] ++ [second] := by
    rw [split.symbols, List.append_assoc]
    rfl
  have whole : codec.decode w = codec.unflush (trellis.traceback (columns (codec.symbols w))
      (firstLeast (metrics (codec.symbols w)))).reverse := codec.decode_eq_unflush w
  -- the way back through the last two columns ends in two more inputs
  obtain ⟨i, j, way⟩ : ∃ i j, (trellis.traceback (columns (codec.symbols w))
      (firstLeast (metrics (codec.symbols w)))).reverse =
        (trellis.traceback (columns received)
          (wayBack intMax (metrics received) first second)).reverse ++ [i, j] := by
    rw [regrouped, metrics_concat, metrics_concat, columns_concat, columns_concat, metrics_concat,
      Trellis.traceback, Trellis.traceback, List.reverse_cons, List.reverse_cons,
      List.append_assoc]
    exact ⟨_, _, rfl⟩
  have front : (trellis.traceback (columns received)
      (wayBack intMax (metrics received) first second)).reverse.length = k := by
    rw [List.length_reverse, Trellis.length_traceback, (survives received).size, split.count]
  rw [whole, way]
  refine (codec.unflush_eq ?_ ?_).trans (congrArg (List.map bitChar) (List.take_left' front))
  · have short := split.short
    rw [List.length_append, front]
    change k + 2 < 2 ^ 64
    unfold intMax at short
    omega
  · rw [List.length_append, front]
    rfl

/-! ## Nearest in the trellis -/

/-- Bits are read back from their characters. -/
theorem toBits_map_bitChar (bits : List Bool) : toBits (bits.map bitChar) = bits := by
  rw [toBits, List.map_map]
  refine (List.map_congr_left fun bit _ => ?_).trans (List.map_id bits)
  cases bit <;> rfl

theorem binary_map_bitChar (bits : List Bool) : Binary (bits.map bitChar) := by
  intro c member
  obtain ⟨bit, _, rfl⟩ := List.mem_map.mp member
  cases bit
  · exact Or.inl rfl
  · exact Or.inr rfl

/-- Nearness, over bits instead of characters. -/
theorem nearest_iff {slack : Nat} {w m : Str} (binary : Binary m) :
    Nearest slack w m ↔ ∀ others : List Bool, others.length = m.length →
      hammingDistance w (codec.encoder.emit codec.start (toBits m ++ [false, false])) ≤
        hammingDistance w (codec.encoder.emit codec.start (others ++ [false, false])) +
          slack := by
  constructor
  · intro nearest others same
    have compared := nearest (others.map bitChar) _ _ (binary_map_bitChar others)
      ((List.length_map _).trans same) (encode_eq_codeword binary)
      (encode_eq_codeword (binary_map_bitChar others))
    rwa [codeword, codeword, toBits_map_bitChar] at compared
  · intro nearest m' code code' binary' same encoded encoded'
    rw [encode_eq_codeword binary, Except.ok.injEq] at encoded
    rw [encode_eq_codeword binary', Except.ok.injEq] at encoded'
    rw [← encoded, ← encoded']
    exact nearest _ ((length_toBits m').trans same)

/-- The distance of an encoding is the cost of its inputs. -/
theorem Split.distance (split : Split w k received first second) {inputs : List Bool}
    (same : inputs.length = k + 2) :
    hammingDistance w (codec.encoder.emit codec.start inputs) =
      trellis.cost codec.start inputs (received ++ [first, second]) := by
  have count : inputs.length = (codec.symbols w).length :=
    same.trans (codec.length_symbols_of_mul split.size).symm
  rw [← split.symbols,
    codec.cost_codeTrellis codec.start count fun _ => codec.length_of_mem_symbols,
    codec.flatten_symbols split.size]
  rfl

/-- The received symbols stay in the range of the metrics. -/
theorem Split.few (split : Split w k received first second) :
    received.length * 2 < intMax := by
  have short := split.short
  rw [split.count]
  exact Nat.lt_of_lt_of_le (Nat.lt_add_of_pos_right (Nat.succ_pos 8)) short

/-- A message is nearest with some endings exactly when it is a cheapest path to
its state, and this state leads with one of the endings. -/
theorem Split.leads_iff (split : Split w k received first second) {inputs : List Bool}
    (same : inputs.length = k) {endings : List (List Bool)}
    (long : ∀ ending ∈ endings, ending.length = 2) {ending : List Bool}
    (member : ending ∈ endings) :
    (∀ others : List Bool, others.length = k → ∀ other ∈ endings,
      hammingDistance w (codec.encoder.emit codec.start (inputs ++ ending)) ≤
        hammingDistance w (codec.encoder.emit codec.start (others ++ other))) ↔
      trellis.cost codec.start inputs received =
          metrics received (trellis.final codec.start inputs) ∧
        trellis.Leads 0 intMax (metrics received) [first, second] endings
          (trellis.final codec.start inputs) ending := by
  rw [← (survives received).leads_iff light split.few
    (same.trans split.count.symm) [first, second] member, split.count]
  refine forall_congr' fun others => forall_congr' fun size => ?_
  refine forall_congr' fun other => forall_congr' fun among => ?_
  rw [split.distance (by rw [List.length_append, same, long ending member]),
    split.distance (by rw [List.length_append, size, long other among])]

/-- A nearest message has a cheapest way and a leading flush. -/
theorem Split.nearest_iff (split : Split w k received first second) {m : Str} (binary : Binary m)
    (size : m.length = k) :
    Nearest 0 w m ↔
      trellis.cost codec.start (toBits m) received =
          metrics received (trellis.final codec.start (toBits m)) ∧
        trellis.Leads 0 intMax (metrics received) [first, second] flushed
          (trellis.final codec.start (toBits m)) [false, false] := by
  have long : ∀ ending ∈ flushed, ending.length = 2 := by decide
  rw [PPRF.nearest_iff binary, size,
    ← split.leads_iff ((length_toBits m).trans size) long (List.mem_singleton_self _)]
  simp only [flushed, List.mem_singleton, forall_eq, Nat.add_zero]

/-- What is decoded has a cheapest way and a leading ending, flushed or not. -/
theorem Split.nearestUnflushed_iff (split : Split w k received first second) {m : Str}
    (size : m.length = k) :
    NearestUnflushed w m ↔ ∃ ending ∈ unflushed,
      trellis.cost codec.start (toBits m) received =
          metrics received (trellis.final codec.start (toBits m)) ∧
        trellis.Leads 0 intMax (metrics received) [first, second] unflushed
          (trellis.final codec.start (toBits m)) ending := by
  have long : ∀ ending ∈ unflushed, ending.length = 2 := fun _ => mem_unflushed_iff.mp
  unfold NearestUnflushed
  refine exists_congr fun ending => ?_
  rw [← mem_unflushed_iff]
  refine and_congr_right fun member => ?_
  rw [size, ← split.leads_iff ((length_toBits m).trans size) long member]
  constructor
  · intro nearest others same other among
    apply nearest
    rw [List.length_append, same, long other among]
  · intro nearest inputs same
    have front : (inputs.take k).length = k := by
      rw [List.length_take, same]
      omega
    have last : inputs.drop k ∈ unflushed := by
      rw [mem_unflushed_iff, List.length_drop, same, Nat.add_sub_cancel_left]
    have compared := nearest (inputs.take k) front (inputs.drop k) last
    rwa [List.take_append_drop] at compared

/-! ## The decoded message -/

/-- The decoded message is a cheapest path to the state on the way back, which
leads with the flushing bits up to a slack of two. -/
theorem Split.decoded (split : Split w k received first second) :
    ∃ s, trellis.final codec.start (toBits (codec.decode w)) = s ∧
      trellis.cost codec.start (toBits (codec.decode w)) received = metrics received s ∧
      trellis.Leads 2 intMax (metrics received) [first, second] flushed s [false, false] ∧
      ∀ t, trellis.Leads 0 intMax (metrics received) [first, second] flushed t [false, false] →
        (∃ ending ∈ unflushed,
          trellis.Leads 0 intMax (metrics received) [first, second] unflushed t ending) →
        trellis.Leads 0 intMax (metrics received) [first, second] flushed s [false, false] := by
  have known := split.known
  have short := split.short
  have reached := (survives received).reached
  obtain ⟨costs, among, offset, growth, table⟩ := exists_profile
    (fun symbol member => known symbol (List.mem_append_left _ member))
    (by rw [split.count]; exact short)
  rw [split.count] at growth
  have room : offset + 9 ≤ intMax := by omega
  have pair : first ∈ pairs := known first (List.mem_append_right _ List.mem_cons_self)
  have pair' : second ∈ pairs :=
    known second (List.mem_append_right _ (List.mem_cons_of_mem _ List.mem_cons_self))
  -- the way back, seen in the table without its offset
  have back : wayBack intMax (metrics received) first second =
      wayBack 9 (profile costs) first second := by
    rw [table]
    exact wayBack_shift room among pair second
  have leads (slack : Nat) (endings : List (List Bool)) (s : codec.State) (ending : List Bool) :
      trellis.Leads slack intMax (metrics received) [first, second] endings s ending ↔
        trellis.Leads slack 9 (profile costs) [first, second] endings s ending := by
    rw [table]
    exact Trellis.leads_shift_iff room
  have core := wayBack_leads costs among first pair second pair'
  simp only [← leads, ← back] at core
  obtain ⟨arrives, paid⟩ := reached _ core.1.1
  refine ⟨_, ?_, ?_, core⟩
  · rw [split.decode_eq, toBits_map_bitChar]
    exact arrives
  · rw [split.decode_eq, toBits_map_bitChar]
    exact paid

/-- What is decoded is a bit string. -/
theorem binary_decode (w : Str) : Binary (codec.decode w) := by
  rw [codec.decode_eq_unflush]
  exact (binary_map_bitChar _).take _

/-- What is decoded is as long as the message. -/
theorem Split.length_decode (split : Split w k received first second) :
    (codec.decode w).length = k := by
  rw [split.decode_eq, List.length_map, List.length_reverse, Trellis.length_traceback,
    (survives received).size, split.count]

/-- With its own last two inputs, the decoded message is nearest. -/
theorem Split.nearestUnflushed_decode (split : Split w k received first second) :
    NearestUnflushed w (codec.decode w) := by
  have short := split.short
  have count := codec.length_symbols_of_mul split.size
  have few : (codec.symbols w).length * codec.numParityBits < intMax := by
    rw [count]
    change (k + 2) * 2 < intMax
    omega
  obtain ⟨inputs, same, decoded, nearest⟩ := codec.decode_spec few
  rw [codec.flatten_symbols split.size] at nearest
  rw [count] at same
  have whole : toBits (codec.decode w) ++ inputs.drop k = inputs := by
    rw [decoded, codec.unflush_eq (by unfold intMax at short; omega) same, toBits_map_bitChar,
      List.take_append_drop]
  refine ⟨inputs.drop k, ?_, fun other size => ?_⟩
  · rw [List.length_drop, same, Nat.add_sub_cancel_left]
  · rw [whole]
    apply nearest
    rw [size, split.length_decode, same]

/-- What is decoded is at most two further away than any other message. -/
theorem Split.nearest_two (split : Split w k received first second) :
    Nearest 2 w (codec.decode w) := by
  obtain ⟨s, arrives, paid, leads, _⟩ := split.decoded
  have size := (length_toBits (codec.decode w)).trans split.length_decode
  rw [PPRF.nearest_iff (binary_decode w), split.length_decode]
  intro others same
  rw [split.distance (by rw [List.length_append, size]; rfl),
    split.distance (by rw [List.length_append, same]; rfl)]
  subst arrives
  exact (survives received).cost_le_of_leads light split.few
    (size.trans split.count.symm) paid leads (same.trans split.count.symm)
    (List.mem_singleton_self _)

/-- **One block.** The decoded message is encoded nearest to a block exactly when
some message is nearest to it both with the flushing bits and with some two last
inputs. -/
theorem Split.nearest_decode_iff (split : Split w k received first second) :
    Nearest 0 w (codec.decode w) ↔
      ∃ m, Binary m ∧ m.length = k ∧ Nearest 0 w m ∧ NearestUnflushed w m := by
  constructor
  · intro nearest
    exact ⟨_, binary_decode w, split.length_decode, nearest, split.nearestUnflushed_decode⟩
  · rintro ⟨m, binary, size, nearest, unflushed⟩
    obtain ⟨s, arrives, paid, _, better⟩ := split.decoded
    obtain ⟨_, leads⟩ := (split.nearest_iff binary size).mp nearest
    obtain ⟨ending, last, _, leads'⟩ := (split.nearestUnflushed_iff size).mp unflushed
    rw [split.nearest_iff (binary_decode w) split.length_decode, arrives]
    exact ⟨paid, better _ leads ⟨ending, last, leads'⟩⟩

/-- **Depuncturing.** Every block is decoded to a message that is emitted nearest
to it with some two last inputs. The message is encoded nearest up to a slack of
two, and without slack exactly when some message is nearest in both ways. -/
theorem nearest_depuncturing_iff {r w : Str} (binary : Binary r)
    (member : w ∈ Blocks.blocks 18 r) (even : 2 ∣ w.length) (long : 6 ≤ w.length) :
    depuncturing r = .ok ((Blocks.blocks 18 r).map codec.decode).flatten ∧
      (codec.decode w).length = w.length / 2 - 2 ∧ NearestUnflushed w (codec.decode w) ∧
      Nearest 2 w (codec.decode w) ∧
      (Nearest 0 w (codec.decode w) ↔
        ∃ m, Binary m ∧ m.length = w.length / 2 - 2 ∧ Nearest 0 w m ∧ NearestUnflushed w m) := by
  have some : r ≠ [] := by
    rintro rfl
    rw [Blocks.blocks_nil] at member
    cases member
  have block : Binary w := binary.of_mem_blocks (Nat.succ_pos 17) member
  have within := Blocks.length_le_of_mem_blocks member
  have size : w.length = (w.length / 2 - 2 + 2) * 2 := by omega
  obtain ⟨_, _, _, split⟩ := exists_split block size (by unfold intMax; omega)
  refine ⟨(depuncturing_eq_ok_iff _ _).mpr ⟨some, rfl⟩, split.length_decode,
    split.nearestUnflushed_decode, split.nearest_two, split.nearest_decode_iff⟩

theorem nearest_depuncturing_iff_of_six :
    Nearest 2 "001100".toList (codec.decode "001100".toList) :=
  (nearest_depuncturing_iff (r := "001100".toList) (by simp [Binary])
    (w := "001100".toList) (by decide) (by decide) (by decide)).2.2.2.1

/-- `001100` is decoded to `1`, whose encoding is at distance four, while that of
`0` is at distance two. -/
theorem far_codeword :
    depuncturing "001100".toList = .ok "1".toList ∧ ¬ Nearest 0 "001100".toList "1".toList := by
  refine ⟨by decide +kernel, fun nearest => ?_⟩
  have compared := nearest "0".toList "011011".toList "000000".toList (by simp [Binary]) rfl
    (by decide +kernel) (by decide +kernel)
  exact absurd compared (by decide)

end Ssle.PPRF
