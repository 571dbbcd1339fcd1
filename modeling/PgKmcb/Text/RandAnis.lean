import PgKmcb.Text.RandTexts

/-!
# Random Chinese characters in GB 18030 (`se_rand.c`)

`zhRandomAnis` draws a number of characters of two bytes.  Its loop lets the generator
write each of them at the beginning of the buffer and copies it from there to its place,
where `num_abc_zh_rand` hands the place itself to the generator.  The beginning is also
the place of the first character: what stands there in the end is the last one that was
drawn (`zhRandomAnisLoop_eq`).

`anisCalls` is the history of the run, the characters that the calls of the generator have
produced.
-/

namespace PgKmcb.Text

open PgKmcb.Lib

/-! ## The functions -/

/-- The `switch` of `random_anis_zh`: the two bytes of a character. -/
def anisZn : RandCall (ℤ × ℤ) := do
  let highPart ← rangeRandom 0 2
  match highPart with
  | 1 =>
      let highZn ← rangeRandom 0x81 0xA0
      let lowZn ← randomChoice (rangeRandom 0x40 0x7E) (rangeRandom 0x80 0xFE)
      return (highZn, lowZn)
  | 2 =>
      let highZn ← rangeRandom 0xAA 0xFE
      let lowZn ← randomChoice (rangeRandom 0x40 0x7E) (rangeRandom 0x80 0xA0)
      return (highZn, lowZn)
  | _ =>
      let highZn ← rangeRandom 0xB0 0xF7
      let lowZn ← rangeRandom 0xA1 0xFE
      return (highZn, lowZn)

/-- The bytes of a character. -/
def anisBytes (zn : ℤ × ℤ) : List Byte := [UInt8.ofInt zn.1, UInt8.ofInt zn.2]

/-- `random_anis_zh`. -/
def randomAnisZh (buffer : List Byte) (ptr : ℕ) : RandCall (List Byte) := do
  let zn ← anisZn
  (writeRange buffer ptr (anisBytes zn) : Call (List Byte))

@[simp] theorem length_anisBytes (zn : ℤ × ℤ) : (anisBytes zn).length = 2 := rfl

/-- The loop of `zh_random_anis`, for so many more characters.  The first copy is one of two
bytes onto themselves. -/
def zhRandomAnisLoop : ℕ → RandState → RandCall RandState
  | 0, s => return s
  | n + 1, s => do
      let buffer ← randomAnisZh s.buffer 0
      let pair ← (readRange buffer 0 2 : Call (List Byte))
      let buffer ← (writeRange buffer s.ptmp pair : Call (List Byte))
      zhRandomAnisLoop n {
        buffer := buffer
        ptmp := s.ptmp + 2
        useMemSize := s.useMemSize + 2 }

/-- `zh_random_anis`: the buffer and `use_mem_size` for `SE_OK`, or another code.  The
pointer to `use_mem_size` is the address of a variable of the caller. -/
def zhRandomAnis (buffer : Option (List Byte)) (characterCount : ℤ) :
    RandCall (Except ℤ (List Byte × ℕ)) :=
  match buffer with
  | none => return .error seInvalidParameterValue
  | some buffer =>
      if characterCount > 0x8000 then return .error seParameterValueOutOfRange
      else do
        let s ← zhRandomAnisLoop characterCount.toNat
          { buffer := buffer, ptmp := 0, useMemSize := 0 }
        return .ok (s.buffer, s.useMemSize)

/-! ## The characters -/

/-- The characters that so many calls of the generator produce. -/
def anisCalls : ℕ → RandCall (List (ℤ × ℤ))
  | 0 => return []
  | n + 1 => do
      let zn ← anisZn
      let zns ← anisCalls n
      return zn :: zns

/-- The ranges of the first and of the second byte in a region: the double-byte regions 3,
4 and 2 of the standard. -/
def anisRegion (highPart : ℤ) : Set (ℤ × ℤ) :=
  match highPart with
  | 1 => Set.Icc 0x81 0xA0 ×ˢ (Set.Icc 0x40 0x7E ∪ Set.Icc 0x80 0xFE)
  | 2 => Set.Icc 0xAA 0xFE ×ˢ (Set.Icc 0x40 0x7E ∪ Set.Icc 0x80 0xA0)
  | _ => Set.Icc 0xB0 0xF7 ×ˢ Set.Icc 0xA1 0xFE

/-- The characters of the three regions. -/
def anisZns : Set (ℤ × ℤ) := anisRegion 0 ∪ anisRegion 1 ∪ anisRegion 2

/-- The generator yields the characters of its regions. -/
theorem anisZn_yields : Yields randomValues anisZn anisZns := by
  have hrange : ∀ {lo hi : ℤ}, lo ≤ hi → hi - lo < 2 ^ 31 →
      Yields randomValues (rangeRandom lo hi) (Set.Icc lo hi) := rangeRandom_yields
  have hpart : Yields randomValues (rangeRandom 0 2) ({0, 1, 2} : Set ℤ) := by
    refine rangeRandom_yields_of_mem (by decide) (by decide) ?_
    intro k
    simp only [Set.mem_insert_iff, Set.mem_singleton_iff]
    omega
  refine (hpart.bind (T := anisRegion) ?_).congr ?_
  · rintro highPart (rfl | rfl | rfl)
    · apply Yields.prod
      · exact hrange (by decide) (by decide)
      · exact hrange (by decide) (by decide)
    · apply Yields.prod
      · exact hrange (by decide) (by decide)
      · exact randomChoice_yields (hrange (by decide) (by decide)) (hrange (by decide) (by decide))
    · apply Yields.prod
      · exact hrange (by decide) (by decide)
      · exact randomChoice_yields (hrange (by decide) (by decide)) (hrange (by decide) (by decide))
  · simp only [anisZns, Set.biUnion_insert, Set.biUnion_singleton, Set.union_assoc]

/-- The numbers of a character are bytes. -/
theorem lt_of_mem_anisZns {zn : ℤ × ℤ} (h : zn ∈ anisZns) :
    (0 ≤ zn.1 ∧ zn.1 < 256) ∧ 0 ≤ zn.2 ∧ zn.2 < 256 := by
  obtain ⟨highZn, lowZn⟩ := zn
  simp only [anisZns, anisRegion, Set.mem_union, Set.mem_prod, Set.mem_Icc] at h
  omega

/-- Different characters have different bytes. -/
theorem anisBytes_inj {zn zn' : ℤ × ℤ} (h : zn ∈ anisZns) (h' : zn' ∈ anisZns)
    (heq : anisBytes zn = anisBytes zn') : zn = zn' := by
  obtain ⟨⟨h0, h1⟩, h2, h3⟩ := lt_of_mem_anisZns h
  obtain ⟨⟨h0', h1'⟩, h2', h3'⟩ := lt_of_mem_anisZns h'
  have hofInt : ∀ {a b : ℤ}, 0 ≤ a → a < 256 → 0 ≤ b → b < 256 →
      UInt8.ofInt a = UInt8.ofInt b → a = b := by
    intro a b ha ha' hb hb' hab
    have hnat := congrArg UInt8.toNat hab
    rw [UInt8.ofInt, UInt8.ofInt, UInt8.toNat_ofNat', UInt8.toNat_ofNat'] at hnat
    omega
  rw [anisBytes, anisBytes, List.cons.injEq, List.cons.injEq] at heq
  obtain ⟨hhigh, hlow, -⟩ := heq
  exact Prod.ext (hofInt h0 h1 h0' h1' hhigh) (hofInt h2 h3 h2' h3' hlow)

/-! ## The loop -/

/-- One round draws a character, writes it at the beginning, and copies it to its place. -/
theorem zhRandomAnisLoop_succ {s : RandState} {draws rest : Stream' ℕ} {zn : ℤ × ℤ}
    (hzn : anisZn draws = .ok (zn, rest)) (h : s.ptmp + 2 ≤ s.buffer.length) (n : ℕ) :
    zhRandomAnisLoop (n + 1) s draws = zhRandomAnisLoop n
      ⟨overwrite (overwrite s.buffer 0 (anisBytes zn)) s.ptmp (anisBytes zn), s.ptmp + 2,
        s.useMemSize + 2⟩ rest := by
  have hfits : 0 + (anisBytes zn).length ≤ s.buffer.length :=
    (Nat.add_le_add_right (Nat.zero_le s.ptmp) 2).trans h
  have hcall : randomAnisZh s.buffer 0 draws =
      .ok (overwrite s.buffer 0 (anisBytes zn), rest) := by
    rw [randomAnisZh, Draws.bind_run hzn, writeRange_of_le hfits]
    rfl
  have hpair : (readRange (overwrite s.buffer 0 (anisBytes zn)) 0 2 : Call (List Byte)) =
      .ok (anisBytes zn) := by
    rw [overwrite_zero]
    exact readRange_of_append List.length_nil rfl
  have hcopy : (writeRange (overwrite s.buffer 0 (anisBytes zn)) s.ptmp (anisBytes zn) :
      Call (List Byte)) =
      .ok (overwrite (overwrite s.buffer 0 (anisBytes zn)) s.ptmp (anisBytes zn)) := by
    refine writeRange_of_le ?_
    rw [length_overwrite hfits]
    exact h
  rw [zhRandomAnisLoop, Draws.bind_run hcall]
  exact (Draws.lift_bind_run hpair _ rest).trans (Draws.lift_bind_run hcopy _ rest)

theorem anisCalls_succ {n : ℕ} {draws draws' rest : Stream' ℕ} {zn : ℤ × ℤ} {zns : List (ℤ × ℤ)}
    (hzn : anisZn draws = .ok (zn, draws')) (hzns : anisCalls n draws' = .ok (zns, rest)) :
    anisCalls (n + 1) draws = .ok (zn :: zns, rest) := by
  rw [anisCalls, Draws.bind_run hzn, Draws.bind_run hzns]
  rfl

/-- The rounds that follow the first one: the characters stand one behind the other, and the
last one also where the first was. -/
theorem zhRandomAnisLoop_eq (n : ℕ) (zn : ℤ × ℤ) (done room : List Byte) (size : ℕ)
    (h : 2 * n ≤ room.length) (draws : Stream' ℕ) : ∃ zns rest,
    anisCalls n draws = .ok (zns, rest) ∧ zns.length = n ∧ (∀ zn ∈ zns, zn ∈ anisZns) ∧
    zhRandomAnisLoop n ⟨anisBytes zn ++ done ++ room, 2 + done.length, size⟩ draws = .ok
      (⟨anisBytes (zns.getLastD zn) ++ done ++ zns.flatMap anisBytes ++ room.drop (2 * n),
        2 + done.length + 2 * n, size + 2 * n⟩, rest) := by
  induction n generalizing zn done room size draws with
  | zero =>
      refine ⟨[], draws, rfl, rfl, List.forall_mem_nil _, ?_⟩
      rw [List.flatMap_nil, List.append_nil]
      rfl
  | succ n ih =>
      rw [Nat.mul_succ] at h
      obtain ⟨zn', draws', hzn', hmem⟩ := anisZn_yields.sound draws
      obtain ⟨zns, rest, hcalls, hlen, hzns, hloop⟩ :=
        ih zn' (done ++ anisBytes zn') (room.drop 2) (size + 2)
          (by rw [List.length_drop]; omega) draws'
      refine ⟨zn' :: zns, rest, anisCalls_succ hzn' hcalls, congrArg (· + 1) hlen,
        List.forall_mem_cons.mpr ⟨hmem, hzns⟩, ?_⟩
      have hfirst : overwrite (anisBytes zn ++ done ++ room) 0 (anisBytes zn') =
          anisBytes zn' ++ done ++ room := by
        rw [overwrite_zero, List.append_assoc, List.append_assoc]
        rfl
      have hfront : (anisBytes zn' ++ done).length = 2 + done.length := by
        rw [List.length_append, length_anisBytes]
      have hplace : overwrite (anisBytes zn' ++ done ++ room) (2 + done.length)
          (anisBytes zn') = anisBytes zn' ++ (done ++ anisBytes zn') ++ room.drop 2 := by
        rw [overwrite_of_append hfront, List.append_assoc _ done, length_anisBytes]
      have hroom : 2 + done.length + 2 ≤ (anisBytes zn ++ done ++ room).length := by
        rw [List.length_append, List.length_append, length_anisBytes]
        omega
      have hcount : 2 * (n + 1) = 2 + 2 * n := by rw [Nat.mul_succ, Nat.add_comm]
      rw [List.length_append, length_anisBytes, ← Nat.add_assoc, List.drop_drop] at hloop
      rw [zhRandomAnisLoop_succ hzn' hroom, hfirst, hplace, hloop, List.getLastD_cons,
        List.flatMap_cons, hcount, ← Nat.add_assoc, ← Nat.add_assoc]
      simp only [List.append_assoc]

/-! ## The whole run -/

/-- What the buffer holds in the end: the last character, and from the second one on those
that were drawn. -/
theorem zhRandomAnis_run {n : ℕ} (hn : n ≤ 0x8000) {buffer : List Byte}
    (hbuffer : 2 * n ≤ buffer.length) (draws : Stream' ℕ) : ∃ zns rest,
    anisCalls n draws = .ok (zns, rest) ∧ zns.length = n ∧ (∀ zn ∈ zns, zn ∈ anisZns) ∧
    zhRandomAnis (some buffer) n draws = .ok (.ok ((zns.getLast?.toList ++ zns.tail).flatMap
      anisBytes ++ buffer.drop (2 * n), 2 * n), rest) := by
  have hrun : ∀ {s : RandState} {rest : Stream' ℕ},
      zhRandomAnisLoop n ⟨buffer, 0, 0⟩ draws = .ok (s, rest) →
      zhRandomAnis (some buffer) n draws = .ok (.ok (s.buffer, s.useMemSize), rest) := by
    intro s rest h
    rw [zhRandomAnis, if_neg (by omega), Int.toNat_natCast, Draws.bind_run h]
    rfl
  cases n with
  | zero => exact ⟨[], draws, rfl, rfl, List.forall_mem_nil _, hrun rfl⟩
  | succ n =>
      obtain ⟨zn, draws', hzn, hmem⟩ := anisZn_yields.sound draws
      obtain ⟨zns, rest, hcalls, hlen, hzns, hloop⟩ := zhRandomAnisLoop_eq n zn []
        (buffer.drop 2) 2 (by rw [List.length_drop]; omega) draws'
      refine ⟨zn :: zns, rest, anisCalls_succ hzn hcalls, congrArg (· + 1) hlen,
        List.forall_mem_cons.mpr ⟨hmem, hzns⟩, ?_⟩
      have hfirst : overwrite (overwrite buffer 0 (anisBytes zn)) 0 (anisBytes zn) =
          anisBytes zn ++ [] ++ buffer.drop 2 := by
        rw [overwrite_zero, overwrite_zero, List.append_nil]
        rfl
      have hcount : 2 * (n + 1) = 2 + 2 * n := by rw [Nat.mul_succ, Nat.add_comm]
      have hroom : 0 + 2 ≤ buffer.length := by omega
      rw [List.drop_drop, List.getLastD_eq_getLast?] at hloop
      rw [hrun ((zhRandomAnisLoop_succ hzn hroom n).trans (hfirst ▸ hloop)),
        List.getLast?_cons, List.tail_cons, Option.toList_some, List.singleton_append,
        List.flatMap_cons, hcount, List.append_nil]

/-- The characters stand one behind the other. -/
def InPlace (buffer : List Byte) (zns : List (ℤ × ℤ)) : Prop :=
  ∀ i zn, zns[i]? = some zn → (buffer.drop (2 * i)).take 2 = anisBytes zn

theorem length_flatMap_anisBytes (zns : List (ℤ × ℤ)) :
    (zns.flatMap anisBytes).length = 2 * zns.length := by
  induction zns with
  | nil => rfl
  | cons zn zns ih =>
      rw [List.flatMap_cons, List.length_append, ih, length_anisBytes, List.length_cons,
        Nat.mul_succ, Nat.add_comm]

theorem inPlace_flatMap (zns : List (ℤ × ℤ)) (behind : List Byte) :
    InPlace (zns.flatMap anisBytes ++ behind) zns := by
  induction zns with
  | nil =>
      intro i zn hzn
      cases hzn
  | cons zn zns ih =>
      intro i zn' hzn'
      cases i with
      | zero =>
          cases hzn'
          rfl
      | succ i => exact ih i zn' hzn'

/-- Every character that is drawn stands in its place if and only if the first one and the
last one that are drawn are the same. -/
theorem zhRandomAnis_inPlace_iff (characterCount : ℕ) (buffer : List Byte) (draws : Stream' ℕ)
    (hcount : characterCount ≤ 32768) (hbuffer : 2 * characterCount ≤ buffer.length) :
    ∃ zns rest out, anisCalls characterCount draws = .ok (zns, rest) ∧
      zhRandomAnis (some buffer) characterCount draws =
        .ok (.ok (out, 2 * characterCount), rest) ∧
      zns.length = characterCount ∧ 2 * characterCount ≤ out.length ∧
      (∀ zn ∈ zns, zn ∈ anisZns) ∧ (InPlace out zns ↔ zns.head? = zns.getLast?) := by
  obtain ⟨zns, rest, hcalls, hlen, hzns, hrun⟩ := zhRandomAnis_run hcount hbuffer draws
  refine ⟨zns, rest, _, hcalls, hrun, hlen, ?_, hzns, ?_⟩
  · have hcount' : (zns.getLast?.toList ++ zns.tail).length = characterCount := by
      rw [← hlen]
      cases zns with
      | nil => rfl
      | cons zn zns =>
          rw [List.getLast?_cons, Option.toList_some, List.tail_cons, List.singleton_append,
            List.length_cons, List.length_cons]
    rw [List.length_append, length_flatMap_anisBytes, hcount']
    exact Nat.le_add_right _ _
  · cases zns with
    | nil => exact iff_of_true (inPlace_flatMap [] _) rfl
    | cons zn zns =>
        rw [List.getLast?_cons, List.head?_cons, Option.toList_some, Option.some.injEq]
        constructor
        · intro h
          have hfirst := h 0 zn rfl
          have hlast := List.mem_of_getLast? (List.getLast?_cons (a := zn) (l := zns))
          exact anisBytes_inj (hzns zn List.mem_cons_self) (hzns _ hlast) hfirst.symm
        · intro h
          rw [← h]
          exact inPlace_flatMap (zn :: zns) _

/-- A buffer for one character. -/
theorem zhRandomAnis_inPlace_one : ∃ zns rest out,
    anisCalls 1 (Stream'.const 0) = .ok (zns, rest) ∧
      zhRandomAnis (some [0, 0]) (1 : ℕ) (Stream'.const 0) = .ok (.ok (out, 2 * 1), rest) ∧
      zns.length = 1 ∧ 2 * 1 ≤ out.length ∧
      (∀ zn ∈ zns, zn ∈ anisZns) ∧ (InPlace out zns ↔ zns.head? = zns.getLast?) :=
  zhRandomAnis_inPlace_iff 1 [0, 0] (Stream'.const 0) (by decide) (by decide)

/-- Two characters, the bytes `B0 A1` and then `B1 A1`: the first one is lost. -/
theorem zhRandomAnis_not_inPlace : ¬ ∀ (characterCount : ℕ) (buffer : List Byte)
    (draws : Stream' ℕ), characterCount ≤ 32768 → 2 * characterCount ≤ buffer.length →
    ∃ zns rest out, anisCalls characterCount draws = .ok (zns, rest) ∧
      zhRandomAnis (some buffer) characterCount draws =
        .ok (.ok (out, 2 * characterCount), rest) ∧
      (∀ zn ∈ zns, zn ∈ anisZns) ∧ InPlace out zns := by
  intro h
  obtain ⟨zns, rest, out, hcalls, hrun, -, hplace⟩ :=
    h 2 [0, 0, 0, 0] (fun i ↦ if i = 4 then 1 else 0) (by decide) (by decide)
  cases hcalls
  cases hrun
  have hfirst := hplace 0 _ rfl
  exact absurd hfirst (by decide)

end PgKmcb.Text
