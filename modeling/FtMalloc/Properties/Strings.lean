import FtMalloc.Refine.Arrays

/-!
# Programs that own strings

What `ft_calloc`, `ft_split`, `array_dup` and `array_to_str` promise to a program, whatever blocks it
already owns, whatever the kernel answers, and wherever an allocation fails: nothing is lost, and
nothing else of what the program owns changes. They return null exactly if `malloc` has refused a
request.
-/

namespace FtMalloc

open HeapLib

variable {P : Platform} {K : Kernel P} {w : Task} {t : Text} {ts : Texts} {str : List UInt8}
  {strs : List (List UInt8)} {c : UInt8}

/-! ## A process with a zone -/

/-- The kernel that refuses. -/
def Kernel.refusing (P : Platform) : Kernel P := ⟨fun _ _ => none, fun _ _ _ hans => by cases hans⟩

/-- The heap behind `malloc(8)`. -/
@[irreducible] def Heap.seeded : Heap :=
  ((malloc .unlimited (kernelAt 65536) 8 Heap.blank).map fun r => r.2).getD Heap.blank

/-- A process with such a heap. -/
def Task.seeded : Task := ⟨.seeded, false⟩

/-- There is one block, in a zone with room for others. -/
theorem sound_seeded : Task.seeded.heap.Sound .unlimited := by
  have hstart : Start Heap.blank := ⟨rfl, rfl, rfl, rfl⟩
  have hblank : Heap.blank.Sound .unlimited := ⟨_, hstart.holds⟩
  have hkernel : Heap.blank.KernelOk .unlimited (kernelAt 65536) :=
    kernelOk_kernelAt (by decide) (by decide) (by decide) fun _ _ => rfl
  obtain ⟨r, s, hrun, hsound, -⟩ := hblank.wp_malloc hkernel 8
  rw [Task.seeded, Heap.seeded, hrun]
  exact hsound

/-- What a run that is carried out returns. -/
theorem result_of_run {p : T ℕ} {r n : ℕ} {w' : Task} (hrun : p w = some (r, w'))
    (h : ((p w).map fun r => r.1) = some n) : r = n := by
  rw [hrun] at h
  exact Option.some.inj h

/-! ## Zeroed memory -/

/-- `ft_calloc` returns null, exactly if `malloc` refuses the request, and changes nothing, or it
returns a new block that starts with as many zeros as the product modulo `2 ^ 64`. The block has room
for the whole product if and only if the product does not wrap. -/
theorem ftCalloc_zeroed (h : w.heap.Sound P) (len size : ℕ) : wp (ftCalloc K len size)
    (fun r w' => w'.heap.Sound P ∧ w'.refused = (w.refused || decide (r = null)) ∧
      (r = null ∧ w'.heap.client = w.heap.client ∨ w.heap.client r = none ∧ ∃ bs,
        w'.heap.client = w.heap.client.put r bs ∧
          (∀ i < len * size % 2 ^ 64, bs[i]? = some 0) ∧
          (len * size ≤ bs.length ↔ len * size < 2 ^ 64))) w := by
  refine wp_mono (h.wp_ftCalloc rfl len size) ?_
  rintro r w' ⟨hsound, hmakes, hrefused⟩
  generalize hD : w'.heap.client = D at hmakes
  cases hmakes with
  | refused => exact ⟨hsound, hrefused, .inl ⟨rfl, rfl⟩⟩
  | made hr hfresh rest =>
    refine ⟨hsound, hrefused, .inr ⟨hfresh, _, rfl, fun i hi => ?_, ?_⟩⟩
    · rw [List.getElem?_append_left (by rwa [List.length_replicate]),
        List.getElem?_replicate_of_lt hi]
    · have hbound := hsound.bound (p := r) (by rw [hD, Store.put_same])
      rw [List.length_append, List.length_replicate] at hbound ⊢
      constructor
      · intro hle
        omega
      · intro hlt
        rw [Nat.mod_eq_of_lt hlt]
        omega

/-- A product that wraps, and a block. -/
theorem ftCalloc_zeroed_witness : ∃ r w', ftCalloc (.refusing .unlimited) (2 ^ 60 + 1) 16 .seeded =
    some (r, w') ∧ w'.refused = false ∧ ∃ bs,
      w'.heap.client = Task.seeded.heap.client.put r bs ∧
        (∀ i < (2 ^ 60 + 1) * 16 % 2 ^ 64, bs[i]? = some 0) ∧ ¬(2 ^ 60 + 1) * 16 ≤ bs.length := by
  obtain ⟨r, w', hrun, -, hrefused, hr⟩ :=
    ftCalloc_zeroed (K := .refusing .unlimited) sound_seeded (2 ^ 60 + 1) 16
  obtain rfl : r = 65696 := result_of_run hrun (by decide +kernel)
  obtain ⟨hnull, -⟩ | ⟨-, bs, hclient, hzero, hroom⟩ := hr
  · cases hnull
  · exact ⟨_, w', hrun, hrefused, bs, hclient, hzero, fun hle => absurd (hroom.mp hle) (by decide)⟩

/-! ## Arrays of words -/

/-- `ft_split` of a string that an `int` can count returns null, exactly if `malloc` refuses one of
its many requests, and leaves the blocks as they were, or it returns an array of exactly the words
of the string, each in a block of its own. `array_free` then takes back all of it. -/
theorem ftSplit_words (h : w.heap.Sound P) (ht : t.Spells w.heap.client str)
    (hn : str.length + 1 < 2 ^ 31) : wp (ftSplit K t c) (fun a w' => w'.heap.Sound P ∧
      w'.refused = (w.refused || decide (a = null)) ∧
      (a = null ∧ w'.heap.client = w.heap.client ∨
        OwnsArray w.heap.client a (words c str) w'.heap.client ∧
          wp (arrayFree P a) (fun _ s => s.Sound P ∧ s.client = w.heap.client) w'.heap)) w := by
  have hlen : (words c str).length ≤ str.length := length_words_le
  refine wp_mono (h.wp_ftSplit rfl ht hn) ?_
  rintro a w' ⟨hsound, hrefused, hnull | harray⟩
  · exact ⟨hsound, hrefused, .inl hnull⟩
  · exact ⟨hsound, hrefused, .inr ⟨harray, hsound.wp_arrayFree harray (by omega)⟩⟩

/-- The words of a constant. -/
theorem ftSplit_words_witness : ∃ a w',
    ftSplit (.refusing .unlimited) (.const [32, 97, 98, 32, 32, 99] 0) 32 .seeded = some (a, w') ∧
      w'.refused = false ∧
      OwnsArray Task.seeded.heap.client a (words 32 [32, 97, 98, 32, 32, 99]) w'.heap.client ∧
      wp (arrayFree .unlimited a) (fun _ s => s.Sound .unlimited ∧
        s.client = Task.seeded.heap.client) w'.heap := by
  have ht : (Text.const [32, 97, 98, 32, 32, 99] 0).Spells Task.seeded.heap.client
      [32, 97, 98, 32, 32, 99] := ⟨by decide, by decide, Nat.zero_le _, [], rfl⟩
  obtain ⟨a, w', hrun, -, hrefused, ha⟩ :=
    ftSplit_words (K := .refusing .unlimited) (c := 32) sound_seeded ht (by decide)
  obtain rfl : a = 65696 := result_of_run hrun (by decide +kernel)
  obtain ⟨hnull, -⟩ | ⟨harray, hfree⟩ := ha
  · cases hnull
  · exact ⟨_, w', hrun, hrefused, harray, hfree⟩

/-- `array_dup` of a constant array or of one in the heap returns null, exactly if `malloc` refuses
one of its requests, and leaves the blocks as they were, or it returns an array of the same strings,
in new blocks, which is an array that the functions can read. `array_free` then takes back all of
it. -/
theorem arrayDup_copies (h : w.heap.Sound P) (hts : ts.Spells w.heap.client strs) :
    wp (arrayDup K ts) (fun a w' => w'.heap.Sound P ∧
      w'.refused = (w.refused || decide (a = null)) ∧
      (a = null ∧ w'.heap.client = w.heap.client ∨
        OwnsArray w.heap.client a strs w'.heap.client ∧
          (Texts.heap a).Spells w'.heap.client strs ∧
          wp (arrayFree P a) (fun _ s => s.Sound P ∧ s.client = w.heap.client) w'.heap)) w := by
  have hbound := hts.bound
  refine wp_mono (h.wp_arrayDup rfl hts) ?_
  rintro a w' ⟨hsound, hrefused, hnull | harray⟩
  · exact ⟨hsound, hrefused, .inl hnull⟩
  · exact ⟨hsound, hrefused, .inr ⟨harray, harray.spells hbound hts.mem,
      hsound.wp_arrayFree harray (by omega)⟩⟩

/-- A copy of a constant array. -/
theorem arrayDup_copies_witness : ∃ a w',
    arrayDup (.refusing .unlimited) (.const [.const [97] 0, .const [98, 99] 1]) .seeded =
      some (a, w') ∧ w'.refused = false ∧
      OwnsArray Task.seeded.heap.client a [[97], [99]] w'.heap.client ∧
      (Texts.heap a).Spells w'.heap.client [[97], [99]] ∧
      wp (arrayFree .unlimited a) (fun _ s => s.Sound .unlimited ∧
        s.client = Task.seeded.heap.client) w'.heap := by
  have hfirst : (Text.const [97] 0).Spells Task.seeded.heap.client [97] :=
    ⟨by decide, by decide, Nat.zero_le _, [], rfl⟩
  have hsecond : (Text.const [98, 99] 1).Spells Task.seeded.heap.client [99] :=
    ⟨by decide, by decide, by decide, [], rfl⟩
  have hts : (Texts.const [.const [97] 0, .const [98, 99] 1]).Spells Task.seeded.heap.client
      [[97], [99]] := ⟨by decide, _, .cons hfirst (.cons hsecond .nil), rfl⟩
  obtain ⟨a, w', hrun, -, hrefused, ha⟩ :=
    arrayDup_copies (K := .refusing .unlimited) sound_seeded hts
  obtain rfl : a = 65696 := result_of_run hrun (by decide +kernel)
  obtain ⟨hnull, -⟩ | ⟨harray, hspells, hfree⟩ := ha
  · cases hnull
  · exact ⟨_, w', hrun, hrefused, harray, hspells, hfree⟩

/-! ## Joining and splitting -/

/-- `array_to_str` of every array, with every separator or none, returns null, exactly if `malloc`
refuses the request, and changes nothing, or a new string: the strings of the array with the
separator between them. If there is a separator, the strings are words without it and an `int` can
count the bytes, `ft_split` finds the strings again. -/
theorem arrayToStr_split (h : w.heap.Sound P) (hts : ts.Spells w.heap.client strs)
    (hlen : (strs.map List.length).sum + strs.length + 1 < 2 ^ 64) :
    wp (arrayToStr K ts c) (fun p w' => w'.heap.Sound P ∧
      w'.refused = (w.refused || decide (p = null)) ∧ w.heap.client.Makes
        ((if c = 0 then [] else [c]).intercalate strs ++ [0]) p w'.heap.client ∧
      (p ≠ null → c ≠ 0 → (∀ word ∈ strs, word ≠ [] ∧ c ∉ word) →
        (strs.map List.length).sum + strs.length + 1 < 2 ^ 31 →
        wp (ftSplit K (.heap p) c) (fun a w'' => w''.heap.Sound P ∧
          w''.refused = (w'.refused || decide (a = null)) ∧
          (a = null ∧ w''.heap.client = w'.heap.client ∨
            OwnsArray w'.heap.client a strs w''.heap.client)) w')) w := by
  refine wp_mono (h.wp_arrayToStr rfl hts hlen) ?_
  rintro p w' ⟨hsound, hmakes, hrefused⟩
  refine ⟨hsound, hrefused, hmakes, fun hp hc hstrs hlen' => ?_⟩
  rw [if_neg hc] at hmakes
  generalize hD : w'.heap.client = D at hmakes
  cases hmakes with
  | refused => exact absurd rfl hp
  | made _ _ rest =>
    have hle := length_intercalate_le [c] strs
    rw [List.length_singleton] at hle
    have hno : 0 ∉ [c].intercalate strs := fun hzero => by
      obtain hz | ⟨word, hw, hz⟩ := mem_intercalate hzero
      · exact hc (List.mem_singleton.mp hz).symm
      · exact (hts.mem word hw).1 hz
    have ht : (Text.heap p).Spells w'.heap.client ([c].intercalate strs) :=
      Text.spells_block hno (by omega) (by rw [hD, Store.put_same])
    rw [← hD]
    refine wp_mono (hsound.wp_ftSplit (K := K) (c := c) rfl ht (by omega)) ?_
    rw [words_intercalate hstrs]
    rintro a w'' ⟨hsound', hrefused', hblocks⟩
    exact ⟨hsound', hrefused', hblocks⟩

/-- Two words. -/
theorem arrayToStr_split_witness : ∃ p w',
    arrayToStr (.refusing .unlimited) (.const [.const [97] 0, .const [98, 99] 0]) 32 .seeded =
      some (p, w') ∧ w'.refused = false ∧
      Task.seeded.heap.client.Makes [97, 32, 98, 99, 0] p w'.heap.client ∧
      ∃ a w'', ftSplit (.refusing .unlimited) (.heap p) 32 w' = some (a, w'') ∧
        w''.refused = false ∧ OwnsArray w'.heap.client a [[97], [98, 99]] w''.heap.client := by
  have hfirst : (Text.const [97] 0).Spells Task.seeded.heap.client [97] :=
    ⟨by decide, by decide, Nat.zero_le _, [], rfl⟩
  have hsecond : (Text.const [98, 99] 0).Spells Task.seeded.heap.client [98, 99] :=
    ⟨by decide, by decide, Nat.zero_le _, [], rfl⟩
  have hts : (Texts.const [.const [97] 0, .const [98, 99] 0]).Spells Task.seeded.heap.client
      [[97], [98, 99]] := ⟨by decide, _, .cons hfirst (.cons hsecond .nil), rfl⟩
  obtain ⟨p, w', hrun, -, hrefused, hmakes, hsplit⟩ :=
    arrayToStr_split (K := .refusing .unlimited) (c := 32) sound_seeded hts (by decide)
  obtain rfl : p = 65696 := result_of_run hrun (by decide +kernel)
  obtain ⟨a, w'', hrun', -, hrefused', ha⟩ :=
    hsplit (by decide) (by decide) (by decide) (by decide)
  have hboth : ((arrayToStr (.refusing .unlimited)
      (.const [.const [97] 0, .const [98, 99] 0]) 32 >>= fun p =>
        ftSplit (.refusing .unlimited) (.heap p) 32) Task.seeded).map (fun r => r.1) =
      some 65744 := by decide +kernel
  obtain rfl : a = 65744 := result_of_run ((run_bind hrun).trans hrun') hboth
  obtain ⟨hnull, -⟩ | harray := ha
  · cases hnull
  · exact ⟨_, w', hrun, hrefused, hmakes, _, w'', hrun', by rw [hrefused', hrefused]; rfl, harray⟩

end FtMalloc
