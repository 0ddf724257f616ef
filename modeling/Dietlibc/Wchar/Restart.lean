import Dietlibc.Wchar.RoundTrip

/-!
# Restarting `mbrtowc`

The bytes of a character handed over in chunks. The state carries what was read from one call to
the next, so the last chunk completes the character (`feed_chunks`). An unfinished chunk however
is reported by its length, not by `(size_t)-2`.
-/

namespace Dietlibc.Wchar

variable {wc : Int} {ps ps' : MbState} {s t : List UInt8} {i : Nat} {chunks : List (List UInt8)}

/-- The calls for the chunks in order, with one state: what each returns and stores. -/
def feed : List (List UInt8) → MbState → List (Nat × Option Int)
  | [], _ => []
  | s :: ss, ps =>
    let (n, wc, ps) := mbrtowc .utf8 s ps
    (n, wc) :: feed ss ps

/-- A call that consumes all its bytes does so wherever its count starts. -/
theorem mbrtowcLoop_shift (hs : s ≠ [])
    (h : mbrtowcLoop .utf8 s i ps = (i + s.length, some wc, ps')) (j : Nat) :
    mbrtowcLoop .utf8 s j ps = (j + s.length, some wc, ps') := by
  induction s generalizing i j ps with
  | nil => exact absurd rfl hs
  | cons c s ih =>
    rw [mbrtowcLoop] at h ⊢
    cases ht : turn c ps with
    | more ps1 =>
      rw [ht] at h
      dsimp only at h ⊢
      by_cases hs1 : s = []
      · subst hs1
        simp [mbrtowcLoop] at h
      · have hi := ih hs1 (i := i + 1) (by rw [h]; simp [Nat.add_comm, Nat.add_left_comm]) (j + 1)
        rw [hi]
        simp [Nat.add_comm, Nat.add_left_comm]
    | kaputt ps1 =>
      rw [ht] at h
      simp at h
    | complete ps1 =>
      rw [ht] at h
      dsimp only at h ⊢
      split at h
      · rename_i h0
        rw [if_pos h0]
        simp only [Prod.mk.injEq, List.length_cons] at h ⊢
        exact ⟨by omega, h.2⟩
      · simp only [Prod.mk.injEq, List.length_cons] at h
        omega

/-- A call that consumes all its bytes leaves every part of them unfinished. -/
theorem mbrtowcLoop_split (ht : t ≠ [])
    (h : mbrtowcLoop .utf8 (s ++ t) i ps = (i + (s ++ t).length, some wc, ps')) :
    ∃ ps1, (∀ j, mbrtowcLoop .utf8 s j ps = (j + s.length, none, ps1)) ∧
      mbrtowcLoop .utf8 t (i + s.length) ps1 = (i + s.length + t.length, some wc, ps') := by
  induction s generalizing i ps with
  | nil => exact ⟨ps, fun j => rfl, by simpa using h⟩
  | cons c s ih =>
    have hpos : 1 ≤ t.length := List.length_pos_iff.mpr ht
    rw [List.cons_append, mbrtowcLoop] at h
    simp only [mbrtowcLoop]
    cases hturn : turn c ps with
    | more ps1 =>
      rw [hturn] at h
      dsimp only at h ⊢
      obtain ⟨ps2, h1, h2⟩ := ih (i := i + 1)
        (by rw [h]; simp [Nat.add_comm, Nat.add_left_comm])
      refine ⟨ps2, fun j => ?_, ?_⟩
      · rw [h1 (j + 1)]
        simp [Nat.add_comm, Nat.add_left_comm]
      · rw [List.length_cons, show i + (s.length + 1) = i + 1 + s.length by omega]
        exact h2
    | kaputt ps1 =>
      rw [hturn] at h
      simp at h
    | complete ps1 =>
      rw [hturn] at h
      dsimp only at h
      split at h
      · simp only [Prod.mk.injEq, List.length_cons, List.length_append] at h
        omega
      · simp only [Prod.mk.injEq, List.length_cons] at h
        omega

/-- What the calls return and store: every chunk its length, the last one the character. -/
theorem feed_chunks (hne : ∀ c ∈ chunks, c ≠ []) (last : List UInt8) (hl : last ≠ [])
    (h : mbrtowc .utf8 (chunks.flatten ++ last) ps =
      ((chunks.flatten ++ last).length, some wc, ps')) :
    feed (chunks ++ [last]) ps =
      chunks.map (fun c => (c.length, none)) ++ [(last.length, some wc)] := by
  induction chunks generalizing ps with
  | nil =>
    simp only [List.flatten_nil, List.nil_append] at h
    simp [feed, h]
  | cons c cs ih =>
    have hr : cs.flatten ++ last ≠ [] := by simp [hl]
    rw [List.flatten_cons, List.append_assoc] at h
    unfold mbrtowc at h
    rw [← Nat.zero_add (List.length _)] at h
    obtain ⟨ps1, h1, h2⟩ := mbrtowcLoop_split hr h
    have hrest := mbrtowcLoop_shift hr h2 0
    rw [Nat.zero_add] at hrest
    have hrec := ih (fun x hx => hne x (List.mem_cons_of_mem _ hx)) hrest
    have hc := h1 0
    rw [Nat.zero_add] at hc
    simp only [List.cons_append, feed, mbrtowc, hc, hrec, List.map_cons]

/-- The calls for the chunks restart as C has it: `(size_t)-2` for all but the last, the number of
its bytes for the last, which stores what the bytes stand for as a whole. -/
def Restarts (chunks : List (List UInt8)) (ps : MbState) : Prop :=
  ∃ init last rs, chunks = init ++ [last] ∧
    feed chunks ps = rs ++ [(last.length, (mbrtowc .utf8 chunks.flatten ps).2.1)] ∧
    ∀ r ∈ rs, r.1 = incomplete

theorem length_le_flatten {c : List UInt8} (hc : c ∈ chunks) : c.length ≤ chunks.flatten.length := by
  induction chunks with
  | nil => cases hc
  | cons d ds ih =>
    rw [List.flatten_cons, List.length_append]
    rcases List.mem_cons.mp hc with rfl | hc
    · omega
    · exact le_trans (ih hc) (by omega)

/-- The null character is reported by 0, not by the length of its encoding. -/
theorem restarts_null (hps : ps.Initial) {init : List (List UInt8)} {last : List UInt8}
    (hne : ∀ c ∈ init ++ [last], c ≠ []) (hfl : (init ++ [last]).flatten = [0]) :
    ¬ Restarts (init ++ [last]) ps := by
  have hlast : 1 ≤ last.length := List.length_pos_iff.mpr (hne last (by simp))
  have hlen := congrArg List.length hfl
  rw [List.flatten_append, List.length_append] at hlen
  simp only [List.flatten_cons, List.flatten_nil, List.append_nil, List.length_singleton] at hlen
  have hinit : init = [] := by
    cases init with
    | nil => rfl
    | cons c cs =>
      have hc : 1 ≤ c.length := List.length_pos_iff.mpr (hne c (by simp))
      have hle := length_le_flatten (show c ∈ c :: cs by simp)
      omega
  subst hinit
  have hl0 : last = [0] := by simpa using hfl
  subst hl0
  have hcall : mbrtowc .utf8 [0] ps = (0, some 0, ⟨0, 0⟩) := by
    have ht : turn 0 ps = .complete ⟨0, 0⟩ := turn_ascii (show 0 < 128 by decide) hps
    simp [mbrtowc, mbrtowcLoop, ht]
  rintro ⟨init, last, rs, hch, hfeed, -⟩
  obtain ⟨hi, hl⟩ := List.append_inj' hch rfl
  cases hl
  cases hi
  have hf : feed ([] ++ [[0]]) ps = [] ++ [(0, some 0)] := by simp [feed, hcall]
  rw [hf] at hfeed
  obtain ⟨-, h0⟩ := List.append_inj' hfeed rfl
  simp at h0

/-- **Restarting.** A character other than the null character is read as C has it exactly when
it comes in one chunk. -/
theorem restarts_iff (wc : Int) (h : 0 ≤ wc ∧ wc ≤ 0x7fffffff) (ps : MbState) (hps : ps.Initial)
    (chunks : List (List UInt8)) (hne : ∀ c ∈ chunks, c ≠ [])
    (hfl : chunks.flatten = (wcrtomb .utf8 wc).2) :
    Restarts chunks ps ↔ chunks.length = 1 ∧ wc ≠ 0 := by
  obtain ⟨hlen, hn1, hn6⟩ := wcrtomb_length (show 0 ≤ wc ∧ wc < 2 ^ 31 by omega)
  rcases List.eq_nil_or_concat chunks with rfl | ⟨init, last, rfl⟩
  · rw [← hfl, List.flatten_nil, List.length_nil] at hlen
    omega
  rw [List.concat_eq_append] at *
  by_cases h0 : wc = 0
  · subst h0
    exact iff_of_false (restarts_null hps hne hfl) fun h => h.2 rfl
  have hwhole := mbrtowc_wcrtomb (show 1 ≤ wc ∧ wc < 2 ^ 31 by omega) hps []
  rw [List.append_nil, ← hfl, ← hlen, ← hfl] at hwhole
  have happ : (init ++ [last]).flatten = init.flatten ++ last := by simp
  have hfeed := feed_chunks (fun c hc => hne c (List.mem_append_left _ hc)) last
    (hne last (by simp)) (by rw [← happ]; exact hwhole)
  unfold Restarts
  rw [hwhole, hfeed]
  constructor
  · rintro ⟨init', last', rs, hch, hrs, hinc⟩
    obtain ⟨hmap, -⟩ := List.append_inj' hrs rfl
    refine ⟨?_, h0⟩
    cases init with
    | nil => rfl
    | cons c cs =>
      -- an unfinished chunk would have to be as long as `(size_t)-2`
      have hc := hinc (c.length, none) (by rw [← hmap]; simp)
      have hle := length_le_flatten (show c ∈ c :: cs ++ [last] by simp)
      rw [hfl, hlen] at hle
      unfold incomplete at hc
      dsimp only at hc
      omega
  · rintro ⟨h1, -⟩
    have hinit : init = [] := by
      rw [List.length_append, List.length_singleton] at h1
      exact List.length_eq_zero_iff.mp (by omega)
    subst hinit
    exact ⟨[], last, [], rfl, rfl, fun r hr => by cases hr⟩

theorem restarts_iff_copyright : Restarts [[0xc2, 0xa9]] ⟨0, 0⟩ ↔
    [[(0xc2 : UInt8), 0xa9]].length = 1 ∧ (0xa9 : Int) ≠ 0 :=
  restarts_iff 0xa9 (by decide) ⟨0, 0⟩ rfl [[0xc2, 0xa9]] (by decide) (by decide)

/-- The first byte of `©` alone is reported as one byte read. -/
theorem feed_copyright : feed [[0xc2], [0xa9]] ⟨0, 0⟩ = [(1, none), (1, some 0xa9)] ∧
    ¬ Restarts [[0xc2], [0xa9]] ⟨0, 0⟩ := by
  have hfeed : feed [[0xc2], [0xa9]] ⟨0, 0⟩ = [(1, none), (1, some 0xa9)] := by decide
  refine ⟨hfeed, ?_⟩
  rintro ⟨init, last, rs, -, hrs, hinc⟩
  rw [hfeed, show [(1, none), (1, some (0xa9 : Int))] = [(1, none)] ++ [(1, some 0xa9)] from rfl]
    at hrs
  obtain ⟨hmap, -⟩ := List.append_inj' hrs rfl
  have h1 := hinc (1, none) (by rw [← hmap]; simp)
  exact absurd h1 (by decide)

end Dietlibc.Wchar
