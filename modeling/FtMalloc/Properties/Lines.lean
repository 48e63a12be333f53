import FtMalloc.Properties.Strings
import FtMalloc.Refine.Lines

/-!
# Reading lines from several files

A program that calls `get_next_line` for one descriptor after the other gets the lines of each file
in their order, in blocks that are its own, however `read` cuts the files into pieces. Beside them
there are only the texts that `temp` keeps.
-/

namespace FtMalloc

open HeapLib

variable {P : Platform} {K : Kernel P} {L : Limits} {w w' : World} {C : Store UInt8}
  {lines : List (ℕ × List UInt8)} {u : ℕ → List UInt8} {i n : ℕ} {fds : List ℤ}

/-- The block at `p` with a string, if `p` is not null. -/
def stringBlock (p : ℕ) (str : List UInt8) : List (ℕ × List UInt8) :=
  if p = 0 then [] else [(p, str ++ [0])]

/-- The blocks of the texts that `temp` keeps for the first `n` descriptors. -/
def keptBlocks (n : ℕ) (temp : ℕ → ℕ) (u : ℕ → List UInt8) : List (ℕ × List UInt8) :=
  (List.range n).flatMap fun i => stringBlock (temp i) (u i)

/-- The blocks that a program has got. -/
def stringBlocks (ps : List ℕ) (strs : List (List UInt8)) : List (ℕ × List UInt8) :=
  (ps.zip strs).flatMap fun e => stringBlock e.1 e.2

/-- The block of one descriptor among the others. -/
theorem exists_keptBlocks (hi : i < n) (temp : ℕ → ℕ) (u : ℕ → List UInt8) : ∃ l r,
    ∀ (temp' : ℕ → ℕ) (u' : ℕ → List UInt8), (∀ j ≠ i, temp' j = temp j ∧ u' j = u j) →
      keptBlocks n temp' u' = l ++ stringBlock (temp' i) (u' i) ++ r := by
  obtain ⟨s, t, hrange⟩ := List.append_of_mem (List.mem_range.mpr hi)
  have hnodup : (s ++ i :: t).Nodup := hrange ▸ List.nodup_range
  rw [List.nodup_middle, List.nodup_cons, List.mem_append, not_or] at hnodup
  refine ⟨s.flatMap fun j => stringBlock (temp j) (u j),
    t.flatMap fun j => stringBlock (temp j) (u j), fun temp' u' hother => ?_⟩
  have hcongr (l : List ℕ) (hl : i ∉ l) : l.flatMap (fun j => stringBlock (temp' j) (u' j)) =
      l.flatMap fun j => stringBlock (temp j) (u j) := by
    refine List.flatMap_congr fun j hj => ?_
    obtain ⟨htemp, hu⟩ := hother j fun heq => hl (heq ▸ hj)
    rw [htemp, hu]
  rw [keptBlocks, hrange, List.flatMap_append, List.flatMap_cons, hcongr s hnodup.1.1,
    hcongr t hnodup.1.2, List.append_assoc]

/-- A process that owns the blocks of `C`, those of `lines`, and the texts `u` in `temp`. -/
structure World.Keeps (P : Platform) (L : Limits) (C : Store UInt8) (lines : List (ℕ × List UInt8))
    (u : ℕ → List UInt8) (w : World) : Prop where
  sound : w.heap.Sound P
  owns : C.Owns (keptBlocks L.openMax w.temp u ++ lines) w.heap.client
  empty : ∀ i < L.openMax, w.temp i = null → u i = []
  noNul : ∀ i < L.openMax, 0 ∉ u i

/-- What a descriptor has still to deliver. -/
noncomputable def World.rest (w : World) (u : ℕ → List UInt8) (i : ℕ) : List UInt8 :=
  u i ++ content (w.input i)

/-- One call. -/
theorem World.Keeps.wp_getNextLine {fd : ℤ} (h : w.Keeps P L C lines u)
    (hfd : 0 ≤ fd ∧ fd < L.openMax) (hsize : 0 < L.bufferSize) (hsize' : L.bufferSize + 1 < 2 ^ 31)
    (hends : Ends (w.input fd.toNat)) (hn : (w.rest u fd.toNat).length + 1 < 2 ^ 31) :
    wp (getNextLine K L fd) (fun r w' => ∃ line u',
      w'.Keeps P L C (lines ++ stringBlock r line) u' ∧
      (r = null ↔ line = []) ∧ (r = null → w'.temp fd.toNat = null) ∧
      (w.refused = true → w'.refused = true) ∧
      (∀ i, (w'.rest u' i).length ≤ (w.rest u i).length ∧ (Ends (w.input i) → Ends (w'.input i)) ∧
        (Plain (w.input i) → Plain (w'.input i))) ∧
      (∀ i ≠ fd.toNat, w'.rest u' i = w.rest u i) ∧
      (Plain (w.input fd.toNat) → w'.refused = false →
        line = firstLine 10 (w.rest u fd.toNat) ∧
          w'.rest u' fd.toNat = afterLine 10 (w.rest u fd.toNat))) w := by
  have hi : fd.toNat < L.openMax := by omega
  obtain ⟨l, r, hkept⟩ := exists_keptBlocks hi w.temp u
  have howns := h.owns
  rw [hkept w.temp u fun _ _ => ⟨rfl, rfl⟩, List.append_assoc] at howns
  obtain ⟨D, hD, hmakes⟩ := howns.exists_makes
  rw [World.rest, List.length_append] at hn
  refine wp_mono (World.wp_getNextLine h.sound hfd hmakes (h.empty _ hi) (h.noNul _ hi) hsize
    hsize' hends hn) ?_
  rintro p w' ⟨line, v, hline⟩
  have hother : ∀ j ≠ fd.toNat, w'.rest (Function.update u fd.toNat v) j = w.rest u j :=
    fun j hj => by rw [World.rest, World.rest, hline.others j hj, Function.update_of_ne hj]
  have hsame : w'.rest (Function.update u fd.toNat v) fd.toNat =
      v ++ content (w'.input fd.toNat) := by rw [World.rest, Function.update_self]
  refine ⟨line, Function.update u fd.toNat v, ⟨hline.sound, ?_, fun j hj => ?_, fun j hj => ?_⟩,
    hline.failed, hline.closed, hline.refused, fun j => ?_, hother, fun hp hw => ?_⟩
  · obtain ⟨E, hE, hF⟩ := hline.blocks
    have hnew := (hD.makes hE).makes hF
    have hblocks := hkept w'.temp (Function.update u fd.toNat v) fun j hj =>
      ⟨hline.temps j hj, Function.update_of_ne hj ..⟩
    rw [Function.update_self] at hblocks
    rw [hblocks]
    refine hnew.perm (List.perm_iff_count.mpr fun x => ?_)
    simp only [stringBlock, List.count_append]
    omega
  · by_cases heq : j = fd.toNat
    · subst heq
      rw [Function.update_self]
      exact hline.empty
    · rw [Function.update_of_ne heq, hline.temps j heq]
      exact h.empty j hj
  · by_cases heq : j = fd.toNat
    · subst heq
      rw [Function.update_self]
      exact hline.noNul
    · rw [Function.update_of_ne heq]
      exact h.noNul j hj
  · by_cases heq : j = fd.toNat
    · subst heq
      rw [hsame, World.rest, List.length_append, List.length_append]
      exact ⟨hline.short, fun _ => hline.ends, hline.plain⟩
    · rw [hother j heq, hline.others j heq]
      exact ⟨Nat.le_refl _, id, id⟩
  · rw [hsame]
    exact hline.whole hp hw

/-- One call after the other. -/
theorem World.Keeps.wp_getNextLines (h : w.Keeps P L C lines u)
    (hfds : ∀ fd ∈ fds, 0 ≤ fd ∧ fd < L.openMax) (hsize : 0 < L.bufferSize)
    (hsize' : L.bufferSize + 1 < 2 ^ 31)
    (hn : ∀ fd ∈ fds, Ends (w.input fd.toNat) ∧ (w.rest u fd.toNat).length + 1 < 2 ^ 31) :
    wp (getNextLines K L fds) (fun ps w' => ∃ strs u',
      w'.Keeps P L C (lines ++ stringBlocks ps strs) u' ∧
      List.Forall₂ (fun p str => p = null ↔ str = []) ps strs ∧
      (w.refused = true → w'.refused = true) ∧
      ((∀ fd ∈ fds, Plain (w.input fd.toNat)) → w'.refused = false →
        strs = readLines 10 (w.rest u) (fds.map Int.toNat) ∧
          w'.rest u' = leftOver 10 (w.rest u) (fds.map Int.toNat))) w := by
  induction fds generalizing w lines u with
  | nil =>
    rw [getNextLines, wp_pure]
    refine ⟨[], u, ?_, .nil, id, fun _ _ => ⟨rfl, rfl⟩⟩
    rw [stringBlocks, List.zip_nil_left, List.flatMap_nil, List.append_nil]
    exact h
  | cons fd fds ih =>
    have hhead := List.mem_cons_self (a := fd) (l := fds)
    rw [getNextLines, wp_bind]
    obtain ⟨hends, hshort⟩ := hn fd hhead
    refine wp_mono (h.wp_getNextLine (hfds fd hhead) hsize hsize' hends hshort) ?_
    rintro p w₁ ⟨line, u₁, hkeeps, hfailed, -, hrefused, hless, hother, hexact⟩
    rw [wp_bind]
    refine wp_mono (ih hkeeps (fun fd hfd => hfds fd (List.mem_cons_of_mem _ hfd))
      fun fd' hfd => ?_) ?_
    · obtain ⟨hends', hshort'⟩ := hn fd' (List.mem_cons_of_mem _ hfd)
      obtain ⟨hle, hkept, -⟩ := hless fd'.toNat
      exact ⟨hkept hends', by omega⟩
    · rintro ps w₂ ⟨strs, u₂, hkeeps₂, hall, hrefused₂, hexact₂⟩
      rw [wp_pure]
      refine ⟨line :: strs, u₂, ?_, .cons hfailed hall, fun hw => hrefused₂ (hrefused hw),
        fun hp hw => ?_⟩
      · rw [List.append_assoc] at hkeeps₂
        exact hkeeps₂
      · have hw₁ : w₁.refused = false := Bool.eq_false_iff.mpr fun htrue => by
          rw [hrefused₂ htrue] at hw
          cases hw
        obtain ⟨hline, hrest⟩ := hexact (hp fd hhead) hw₁
        have hnext : w₁.rest u₁ = Function.update (w.rest u) fd.toNat
            (afterLine 10 (w.rest u fd.toNat)) := by
          funext i
          by_cases hi : i = fd.toNat
          · rw [hi, Function.update_self, hrest]
          · rw [Function.update_of_ne hi, hother i hi]
        obtain ⟨hstrs, hleft⟩ := hexact₂ (fun fd' hfd =>
          (hless fd'.toNat).2.2 (hp fd' (List.mem_cons_of_mem _ hfd))) hw
        rw [hnext] at hstrs hleft
        rw [hline, hstrs, hleft]
        exact ⟨rfl, rfl⟩

/-- A process that has not called `get_next_line` yet. -/
theorem World.keeps_of_null (h : w.heap.Sound P) (htemp : ∀ i, w.temp i = null) :
    w.Keeps P L w.heap.client [] fun _ => [] := by
  refine ⟨h, ?_, fun _ _ _ => rfl, fun _ _ => List.not_mem_nil⟩
  have hnone : keptBlocks L.openMax w.temp (fun _ => []) = [] :=
    List.flatMap_eq_nil_iff.mpr fun i _ => if_pos (htemp i)
  rw [hnone]
  exact Store.owns_nil

/-- A program that reads from several descriptors, whose bytes end, in any order owns, beside its
other blocks, which are unchanged, exactly the lines it has got, in blocks of their own, and the
texts in `temp`. If the files hold no zero byte, `read` never fails on them and no request for memory
was refused, each call has got the next line of its file, with its newline, and null if and only if
there was none left; and what is left of each file is in `temp` and still to be read. -/
theorem getNextLines_read (h : w.heap.Sound P) (htemp : ∀ i, w.temp i = null)
    (hfds : ∀ fd ∈ fds, 0 ≤ fd ∧ fd < L.openMax) (hsize : 0 < L.bufferSize)
    (hsize' : L.bufferSize + 1 < 2 ^ 31)
    (hn : ∀ fd ∈ fds, Ends (w.input fd.toNat) ∧
      (content (w.input fd.toNat)).length + 1 < 2 ^ 31) :
    wp (getNextLines K L fds) (fun ps w' => w'.heap.Sound P ∧ ∃ strs u,
      w.heap.client.Owns (keptBlocks L.openMax w'.temp u ++ stringBlocks ps strs) w'.heap.client ∧
      List.Forall₂ (fun p str => p = null ↔ str = []) ps strs ∧
      ((∀ fd ∈ fds, Plain (w.input fd.toNat)) → w'.refused = false →
        strs = readLines 10 (fun i => content (w.input i)) (fds.map Int.toNat) ∧
          ∀ i, u i ++ content (w'.input i) =
            leftOver 10 (fun i => content (w.input i)) (fds.map Int.toNat) i)) w := by
  refine wp_mono ((World.keeps_of_null h htemp).wp_getNextLines hfds hsize hsize' hn) ?_
  rintro ps w' ⟨strs, u, hkeeps, hall, -, hexact⟩
  refine ⟨hkeeps.sound, strs, u, hkeeps.owns, hall, fun hp hw => ?_⟩
  obtain ⟨hstrs, hleft⟩ := hexact hp hw
  exact ⟨hstrs, fun i => congrFun hleft i⟩

/-- A process that has one block, and files of two lines. -/
def World.seeded : World :=
  ⟨.seeded, fun _ => null, fun _ => Stream'.cons (some [97, 10, 98]) (Stream'.const (some []))⟩

/-- The files of that process end. -/
theorem ends_seeded :
    Ends (World.seeded.input i) ∧ content (World.seeded.input i) = [97, 10, 98] := by
  have hsettled : SettledBy (World.seeded.input i) 1 := (settledBy_of_end fun _ => rfl).cons
  exact ⟨⟨1, hsettled⟩, hsettled.content_eq⟩

/-- The first line of a file, and no request is refused. -/
theorem getNextLines_read_witness : ∃ ps w' u,
    getNextLines (.refusing .unlimited) ⟨16, 3⟩ [3] .seeded = some (ps, w') ∧
      Task.seeded.heap.client.Owns (keptBlocks 16 w'.temp u ++ stringBlocks ps [[97, 10]])
        w'.heap.client ∧
      List.Forall₂ (fun p (str : List UInt8) => p = null ↔ str = []) ps [[97, 10]] ∧
      u 3 ++ content (w'.input 3) = [98] := by
  have hfds : ∀ fd ∈ [(3 : ℤ)], 0 ≤ fd ∧ fd < (16 : ℕ) := by decide
  obtain ⟨ps, w', hrun, -, strs, u, howns, hall, hexact⟩ :=
    getNextLines_read (K := .refusing .unlimited) (L := ⟨16, 3⟩) (w := .seeded) sound_seeded
      (fun _ => rfl) hfds (by decide) (by decide) fun _ _ => by
        rw [ends_seeded.2]
        exact ⟨ends_seeded.1, by decide⟩
  have hplain (fd : ℕ) : Plain (World.seeded.input fd) := by
    rintro (_ | k)
    · exact ⟨[97, 10, 98], rfl, by decide, fun hnil => absurd hnil (by decide)⟩
    · refine ⟨[], rfl, by decide, fun _ j hj => ?_⟩
      obtain ⟨j, rfl⟩ := Nat.exists_eq_add_of_le' (Nat.le_of_add_left_le hj)
      rfl
  have hrefused : ((getNextLines (.refusing .unlimited) ⟨16, 3⟩ [3] .seeded).map
      fun r => r.2.refused) = some false := by decide +kernel
  rw [hrun] at hrefused
  obtain ⟨rfl, hleft⟩ := hexact (fun _ _ => hplain _) (Option.some.inj hrefused)
  simp only [ends_seeded.2] at howns hall hleft
  exact ⟨ps, w', u, hrun, howns, hall, hleft 3⟩

/-! ## The check of the descriptor -/

/-- If the bytes of all descriptors end, `get_next_line` keeps to its memory for every descriptor
but `OPEN_MAX`, which its check lets through and which is no index of `temp`. -/
theorem getNextLine_defined_iff (h : w.Keeps P L C lines u) (hsize' : L.bufferSize + 1 < 2 ^ 31)
    (hn : ∀ i < L.openMax, Ends (w.input i) ∧ (w.rest u i).length + 1 < 2 ^ 31) (fd : ℤ) :
    wp (getNextLine K L fd) (fun _ w' => ∃ lines u, w'.Keeps P L C lines u) w ↔
      L.bufferSize ≤ 0 ∨ fd ≠ L.openMax := by
  by_cases hguard : fd < 0 ∨ L.bufferSize ≤ 0 ∨ fd > L.openMax
  · rw [getNextLine, wp_ite_pos hguard, wp_pure]
    exact iff_of_true ⟨lines, u, h⟩ (by omega)
  · by_cases hmax : fd = L.openMax
    · rw [getNextLine, wp_ite_neg hguard, wp_bind]
      refine iff_of_false ?_ (by omega)
      rintro ⟨_, _, hget, -⟩
      rw [getTemp, if_neg (by omega)] at hget
      cases hget
    · refine iff_of_true ?_ (.inr hmax)
      obtain ⟨hends, hshort⟩ := hn fd.toNat (by omega)
      refine wp_mono (h.wp_getNextLine (by omega) (by omega) hsize' hends hshort) ?_
      rintro r w' ⟨line, u', hkeeps, -⟩
      exact ⟨_, u', hkeeps⟩

/-- The first descriptor that is none. -/
theorem getNextLine_defined_iff_witness :
    (wp (getNextLine (.refusing .unlimited) ⟨16, 3⟩ 16) (fun _ w' => ∃ lines u,
      w'.Keeps .unlimited ⟨16, 3⟩ World.seeded.heap.client lines u) World.seeded ↔
        (3 : ℤ) ≤ 0 ∨ (16 : ℤ) ≠ (16 : ℕ)) := by
  have hkeeps : World.seeded.Keeps .unlimited ⟨16, 3⟩ World.seeded.heap.client [] fun _ => [] :=
    World.keeps_of_null sound_seeded fun _ => rfl
  refine getNextLine_defined_iff hkeeps (by decide) (fun i _ => ?_) 16
  rw [World.rest, ends_seeded.2]
  exact ⟨ends_seeded.1, by decide⟩

end FtMalloc
