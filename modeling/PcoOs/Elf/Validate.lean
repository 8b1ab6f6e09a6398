/-
  `elf_validate_user_image` as a decision on the load segments. When the program headers lie
  inside the image, the validator returns, and it returns `True` exactly when the segments are
  well formed, do not overlap, span 1 to 64 pages and one of them holds the entry point
  (`elfValidateUserImage_decides`). It panics exactly when it gets past the header checks with a
  program header that sticks out of the image.
-/
import PcoOs.Elf.Headers

namespace PcoOs.Elf

open PcoOs.Lib

/-! ## Fields of load segments -/

section Fields

variable {img : Image} (hs : Sized img) (hin : HeadersInside img) {i : Nat} {s : Segment}
  (hi : (segments img)[i]? = some s)
include hs hin hi

/-- A field read through the index of a load segment. -/
theorem userSegmentField_eq (missing : String) {f : Image → Int → Except String Int}
    {g : Segment → Int}
    (hf : ∀ q : Nat, Inside img (headerAt img q) 48 → f img q = .ok (g (segmentAt img q))) :
    userSegmentField missing f img i = .ok (g s) := by
  obtain ⟨q, hq, rfl, hq48⟩ := elfUserLoadSegmentPhIndex_eq hs hin hi
  unfold userSegmentField
  rw [hq, ok_bind, if_neg (by omega), hf q hq48]

theorem elfUserSegmentVaddr_eq : elfUserSegmentVaddr img i = .ok s.vaddr :=
  userSegmentField_eq hs hin hi (g := Segment.vaddr) _
    fun _ h => segmentField_u64 (d := 16) hs h (by norm_num)

theorem elfUserSegmentOffset_eq : elfUserSegmentOffset img i = .ok s.offset :=
  userSegmentField_eq hs hin hi (g := Segment.offset) _
    fun _ h => segmentField_u64 (d := 8) hs h (by norm_num)

theorem elfUserSegmentFilesz_eq : elfUserSegmentFilesz img i = .ok s.filesz :=
  userSegmentField_eq hs hin hi (g := Segment.filesz) _
    fun _ h => segmentField_u64 (d := 32) hs h (by norm_num)

theorem elfUserSegmentMemsz_eq : elfUserSegmentMemsz img i = .ok s.memsz :=
  userSegmentField_eq hs hin hi (g := Segment.memsz) _ fun _ h => elfSegmentMemsz_eq hs h

theorem elfUserSegmentFlags_eq : elfUserSegmentFlags img i = .ok (s.flags : Int) :=
  userSegmentField_eq hs hin hi (g := fun s => s.flags) _ fun _ h => elfSegmentFlags_eq hs h

end Fields

/-! ## The decision -/

/-- The end of a segment in 64-bit arithmetic: the sum may wrap. -/
def Segment.stop (s : Segment) : Int := wrap (s.vaddr + s.memsz)

/-- The checks on a single segment of an image of `len` bytes. -/
structure Segment.WellFormed (s : Segment) (len : Nat) : Prop where
  aligned : s.vaddr % 4096 = 0
  memsz : 0 < s.memsz
  filesz : s.filesz ≤ s.memsz
  file : wrap (s.offset + s.filesz) ≤ len
  pages : alignUpI s.stop 4096 >>> (12 : Nat) ≤ 64

def Segment.Apart (s t : Segment) : Prop := ¬ (s.vaddr < t.stop ∧ t.vaddr < s.stop)

/-- The largest end of a segment, at least `top`. -/
def topOf : List Segment → Int → Int
  | [], top => top
  | s :: rest, top => topOf rest (if s.stop > top then s.stop else top)

def pageCount (img : Image) : Int := alignUpI (topOf (segments img) 0) 4096 >>> (12 : Nat)

/-- What the validator accepts, past the checks of the file header. -/
structure Accepts (img : Image) : Prop where
  nonempty : 0 < (segments img).length
  wellFormed : ∀ s ∈ segments img, s.WellFormed img.length
  apart : (segments img).Pairwise Segment.Apart
  pos : 0 < pageCount img
  max : pageCount img ≤ 64
  entry : ∃ s ∈ segments img, s.vaddr ≤ entryPoint img ∧ entryPoint img < s.stop

theorem allSegments_decides {p : Nat → Except String Bool} {Q : Nat → Prop} {n i : Nat}
    (h : ∀ j, i ≤ j → j < i + n → Decides (p j) (Q j)) :
    Decides (allSegments p i n) (∀ j, i ≤ j → j < i + n → Q j) := by
  induction n generalizing i with
  | zero => exact ⟨true, rfl, by simp; omega⟩
  | succ n ih =>
    have hrest := ih (i := i + 1) fun j h1 h2 => h j (by omega) (by omega)
    have hboth : Decides (p i >>= fun ok => if ok then allSegments p (i + 1) n else .ok false)
        (Q i ∧ ∀ j, i + 1 ≤ j → j < i + 1 + n → Q j) :=
      decides_bind (h i (le_refl i) (by omega)) rfl fun _ => hrest
    refine hboth.congr ⟨?_, ?_⟩
    · rintro ⟨h0, h1⟩ j hj hlt
      by_cases hji : j = i
      · rwa [hji]
      · exact h1 j (by omega) (by omega)
    · exact fun h' => ⟨h' i (le_refl i) (by omega), fun j h1 h2 => h' j (by omega) (by omega)⟩

theorem anySegment_decides {p : Nat → Except String Bool} {Q : Nat → Prop} {n i : Nat}
    (h : ∀ j, i ≤ j → j < i + n → Decides (p j) (Q j)) :
    Decides (anySegment p i n) (∃ j, i ≤ j ∧ j < i + n ∧ Q j) := by
  induction n generalizing i with
  | zero => exact ⟨false, rfl, by simp; omega⟩
  | succ n ih =>
    obtain ⟨b, hb, hq⟩ := h i (le_refl i) (by omega)
    obtain ⟨b', hb', hq'⟩ := ih (i := i + 1) fun j h1 h2 => h j (by omega) (by omega)
    unfold anySegment
    rw [hb, ok_bind]
    by_cases hi : b = true
    · rw [if_pos hi]
      exact ⟨true, rfl, by simpa using ⟨i, le_refl i, by omega, hq.mp hi⟩⟩
    · rw [if_neg hi]
      refine ⟨b', hb', hq'.trans ⟨?_, ?_⟩⟩
      · rintro ⟨j, h1, h2, hj⟩
        exact ⟨j, by omega, by omega, hj⟩
      · rintro ⟨j, h1, h2, hj⟩
        by_cases hji : j = i
        · exact absurd (hq.mpr (hji ▸ hj)) hi
        · exact ⟨j, by omega, by omega, hj⟩

section Decision

variable {img : Image} (hs : Sized img) (hin : HeadersInside img)
include hs hin

theorem segmentApart_decides {s t : Segment} {j : Nat} (hj : (segments img)[j]? = some t) :
    Decides (segmentApart img s.vaddr s.memsz j) (s.Apart t) := by
  unfold segmentApart
  rw [elfUserSegmentVaddr_eq hs hin hj, ok_bind, elfUserSegmentMemsz_eq hs hin hj, ok_bind]
  exact decides_decide _

/-- The checks of segment `i`: its own fields, and that no later segment overlaps it. -/
theorem segmentValid_decides {s : Segment} {i : Nat} (hi : (segments img)[i]? = some s) :
    Decides (segmentValid img (segments img).length i) (s.WellFormed img.length ∧
      ∀ j t, i < j → (segments img)[j]? = some t → s.Apart t) := by
  have hlt : i < (segments img).length := (List.getElem?_eq_some_iff.mp hi).1
  have hrest : Decides (allSegments (segmentApart img s.vaddr s.memsz) (i + 1)
      ((segments img).length - (i + 1)))
      (∀ j, i + 1 ≤ j → j < i + 1 + ((segments img).length - (i + 1)) →
        ∀ t, (segments img)[j]? = some t → s.Apart t) := by
    refine allSegments_decides fun j h1 h2 => ?_
    have hjlt : j < (segments img).length := by omega
    have hj := List.getElem?_eq_getElem hjlt
    refine (segmentApart_decides hs hin hj).congr ⟨fun h t ht => ?_, fun h => h _ hj⟩
    rwa [← Option.some.inj (hj.symm.trans ht)]
  unfold segmentValid
  rw [elfUserSegmentOffset_eq hs hin hi, ok_bind, elfUserSegmentVaddr_eq hs hin hi, ok_bind,
    elfUserSegmentFilesz_eq hs hin hi, ok_bind, elfUserSegmentMemsz_eq hs hin hi, ok_bind]
  refine (decides_unless fun _ => decides_unless fun _ => decides_unless fun _ =>
    decides_unless fun _ => hrest).congr ⟨?_, ?_⟩
  · rintro ⟨h1, h2, h3, h4, h5⟩
    refine ⟨⟨not_not.mp h1, by omega, by omega, not_lt.mp h3, not_lt.mp h4⟩,
      fun j t hj ht => h5 j hj ?_ t ht⟩
    have := (List.getElem?_eq_some_iff.mp ht).1
    omega
  · rintro ⟨hw, hapart⟩
    have hm := hw.memsz
    have hf := hw.filesz
    exact ⟨not_not.mpr hw.aligned, by omega, not_lt.mpr hw.file, not_lt.mpr hw.pages,
      fun j hj _ t ht => hapart j t hj ht⟩

theorem elfUserImageTop_eq : elfUserImageTop img = .ok (topOf (segments img) 0) := by
  have hloop : ∀ n i top, i + n = (segments img).length →
      loop (fun i top => do
        let vaddr ← elfUserSegmentVaddr img i
        let memsz ← elfUserSegmentMemsz img i
        .ok (if wrap (vaddr + memsz) > top then wrap (vaddr + memsz) else top)) i n top =
        (.ok (topOf ((segments img).drop i) top) : Except String Int) := by
    intro n
    induction n with
    | zero =>
      intro i top hi
      rw [loop_zero, List.drop_of_length_le (by omega)]
      rfl
    | succ n ih =>
      intro i top hi
      have hlt : i < (segments img).length := by omega
      have hget := List.getElem?_eq_getElem hlt
      rw [loop_succ, elfUserSegmentVaddr_eq hs hin hget, ok_bind,
        elfUserSegmentMemsz_eq hs hin hget, ok_bind, ok_bind, ih _ _ (by omega),
        List.drop_eq_getElem_cons hlt]
      rfl
  unfold elfUserImageTop
  rw [elfUserLoadSegmentCount_eq hs hin, ok_bind, hloop _ _ _ (by omega), List.drop_zero]

theorem elfUserImagePageCount_eq : elfUserImagePageCount img = .ok (pageCount img) := by
  unfold elfUserImagePageCount
  rw [elfUserImageTop_eq hs hin]
  rfl

theorem elfEntryInLoadSegment_decides : Decides (elfEntryInLoadSegment img)
    (∃ s ∈ segments img, s.vaddr ≤ entryPoint img ∧ entryPoint img < s.stop) := by
  unfold elfEntryInLoadSegment
  rw [elfEntryOffset_eq hs, ok_bind, elfUserLoadSegmentCount_eq hs hin, ok_bind]
  refine (anySegment_decides (Q := fun j => ∃ s, (segments img)[j]? = some s ∧
    s.vaddr ≤ entryPoint img ∧ entryPoint img < s.stop) fun j _ hj => ?_).congr ⟨?_, ?_⟩
  · have hjlt : j < (segments img).length := by omega
    have hget := List.getElem?_eq_getElem hjlt
    rw [elfUserSegmentVaddr_eq hs hin hget, ok_bind, elfUserSegmentMemsz_eq hs hin hget, ok_bind]
    refine (decides_decide _).congr ⟨fun h => ⟨_, hget, h⟩, ?_⟩
    rintro ⟨s, hs', h⟩
    rwa [← Option.some.inj (hget.symm.trans hs')] at h
  · rintro ⟨j, -, -, s, hj, h⟩
    exact ⟨s, List.mem_of_getElem? hj, h⟩
  · rintro ⟨s, hmem, h⟩
    obtain ⟨j, hj, hget⟩ := List.mem_iff_getElem.mp hmem
    exact ⟨j, Nat.zero_le _, by omega, s, List.getElem?_eq_some_iff.mpr ⟨hj, hget⟩, h⟩

/-- Past the header checks, the validator decides `Accepts`. -/
theorem elfValidateUserImage_decides (hh : elfValidateHeader img = .ok true)
    (h56 : 56 ≤ phentsize img) : Decides (elfValidateUserImage img) (Accepts img) := by
  have hall : Decides (allSegments (segmentValid img (segments img).length) 0
      (segments img).length) ((∀ s ∈ segments img, s.WellFormed img.length) ∧
        (segments img).Pairwise Segment.Apart) := by
    refine (allSegments_decides (Q := fun i => ∀ s, (segments img)[i]? = some s →
      s.WellFormed img.length ∧ ∀ j t, i < j → (segments img)[j]? = some t → s.Apart t)
      fun i _ hlt => ?_).congr ⟨fun h => ⟨?_, ?_⟩, ?_⟩
    · have hi : i < (segments img).length := by omega
      have hget := List.getElem?_eq_getElem hi
      refine (segmentValid_decides hs hin hget).congr ⟨fun h s hs' => ?_, fun h => h _ hget⟩
      rwa [← Option.some.inj (hget.symm.trans hs')]
    · intro s hmem
      obtain ⟨i, hi, hget⟩ := List.mem_iff_getElem.mp hmem
      exact (h i (Nat.zero_le _) (by omega) s (List.getElem?_eq_some_iff.mpr ⟨hi, hget⟩)).1
    · rw [List.pairwise_iff_getElem]
      intro i j hi hj hij
      exact (h i (Nat.zero_le _) (by omega) _ (List.getElem?_eq_getElem hi)).2 j _ hij
        (List.getElem?_eq_getElem hj)
    · rintro ⟨hw, hp⟩ i - - s hget
      rw [List.pairwise_iff_getElem] at hp
      obtain ⟨hi, rfl⟩ := List.getElem?_eq_some_iff.mp hget
      refine ⟨hw _ (List.getElem_mem hi), fun j t hij ht => ?_⟩
      obtain ⟨hj, rfl⟩ := List.getElem?_eq_some_iff.mp ht
      exact hp i j hi hj hij
  unfold elfValidateUserImage
  rw [hh, ok_bind, if_neg (by simp), elfPhentsize_eq hs, ok_bind, if_neg (by omega),
    elfUserLoadSegmentCount_eq hs hin, ok_bind]
  refine (decides_unless fun hn => ?_).congr (P := ¬ (segments img).length ≤ 0 ∧
    ((∀ s ∈ segments img, s.WellFormed img.length) ∧ (segments img).Pairwise Segment.Apart) ∧
    ¬ pageCount img ≤ 0 ∧ ¬ pageCount img > 64 ∧
    ∃ s ∈ segments img, s.vaddr ≤ entryPoint img ∧ entryPoint img < s.stop) ⟨?_, ?_⟩
  · refine decides_bind hall rfl fun _ => ?_
    rw [if_neg (by simp), elfUserImagePageCount_eq hs hin, ok_bind]
    exact decides_unless fun _ => decides_unless fun _ => elfEntryInLoadSegment_decides hs hin
  · rintro ⟨h1, ⟨h2, h3⟩, h4, h5, h6⟩
    exact ⟨by omega, h2, h3, not_le.mp h4, not_lt.mp h5, h6⟩
  · rintro ⟨h1, h2, h3, h4, h5, h6⟩
    exact ⟨by omega, ⟨h2, h3⟩, not_le.mpr h4, not_lt.mpr h5, h6⟩

end Decision

/-! ## When the validator returns -/

/-- The checks of the file header read the first 64 bytes only, and these are there. -/
theorem elfValidateHeader_returns {img : Image} (hlen : img.length < 2 ^ 63) :
    ∃ b, elfValidateHeader img = .ok b ∧ (b = true → 64 ≤ img.length) := by
  unfold elfValidateHeader
  by_cases h64 : (img.length : Int) < 64
  · exact ⟨false, by rw [if_pos h64], fun h => by cases h⟩
  · have hs : Sized img := ⟨by omega, hlen⟩
    have hbyte : ∀ i : Nat, i < 64 → imageByte img i = .ok (img.getD i 0).toNat := fun i hi =>
      imageByte_ok (hs.inside (by omega) (by push_cast; omega))
    have h0 := hbyte 0 (by norm_num)
    have h1 := hbyte 1 (by norm_num)
    have h2 := hbyte 2 (by norm_num)
    have h3 := hbyte 3 (by norm_num)
    have h4 := hbyte 4 (by norm_num)
    have h5 := hbyte 5 (by norm_num)
    push_cast at h0 h1 h2 h3 h4 h5
    rw [if_neg h64, h0, h1, h2, h3, h4, h5, elfU16_ok hlen (hs.inside (by norm_num) (by norm_num)),
      elfU16_ok hlen (hs.inside (by norm_num) (by norm_num))]
    simp only [ok_bind]
    split_ifs <;> exact ⟨_, rfl, fun _ => hs.header⟩

/-- A validator that returns past the header checks found the program headers inside the image. -/
theorem elfValidateUserImage_passed {img : Image} (hlen : img.length < 2 ^ 63) {b : Bool}
    (h : elfValidateUserImage img = .ok b) (hh : elfValidateHeader img = .ok true)
    (h56 : 56 ≤ phentsize img) : Sized img ∧ HeadersInside img := by
  obtain ⟨b', hb', h64⟩ := elfValidateHeader_returns hlen
  rw [hh] at hb'
  have hs : Sized img := ⟨h64 (Except.ok.inj hb').symm, hlen⟩
  unfold elfValidateUserImage at h
  rw [hh, ok_bind, if_neg (by simp), elfPhentsize_eq hs, ok_bind, if_neg (by omega)] at h
  obtain ⟨n, hn, -⟩ := bind_eq_ok.mp h
  exact ⟨hs, headersInside_of_count hs hn⟩

theorem elfValidateUserImage_accepts {img : Image} (hlen : img.length < 2 ^ 63)
    (h : elfValidateUserImage img = .ok true) :
    Sized img ∧ HeadersInside img ∧ Accepts img := by
  have h' := h
  unfold elfValidateUserImage at h'
  obtain ⟨header, hh, h'⟩ := bind_eq_ok.mp h'
  obtain ⟨hheader, h'⟩ := of_early_false h'
  rw [not_not.mp hheader] at hh
  obtain ⟨size, hsize, h'⟩ := bind_eq_ok.mp h'
  obtain ⟨h56, -⟩ := of_early_false h'
  obtain ⟨b, hb, h64⟩ := elfValidateHeader_returns hlen
  rw [hh] at hb
  have hs : Sized img := ⟨h64 (Except.ok.inj hb).symm, hlen⟩
  rw [elfPhentsize_eq hs] at hsize
  cases hsize
  have hin := (elfValidateUserImage_passed hlen h hh (by omega)).2
  obtain ⟨r, hr, hacc⟩ := elfValidateUserImage_decides hs hin hh (by omega)
  rw [h] at hr
  exact ⟨hs, hin, hacc.mp (Except.ok.inj hr).symm⟩

/-- The validator returns exactly when the file header is rejected, the header size is below 56,
    or the type of every program header and the fields of every `PT_LOAD` header lie inside
    the image. -/
theorem elf_validate_returns_iff (img : Image) (hlen : img.length < 2 ^ 63) :
    (∃ b, elfValidateUserImage img = .ok b) ↔
      (elfValidateHeader img = .ok true → 56 ≤ phentsize img → HeadersInside img) := by
  obtain ⟨b, hb, h64⟩ := elfValidateHeader_returns hlen
  refine ⟨fun ⟨r, hr⟩ hh h56 => (elfValidateUserImage_passed hlen hr hh h56).2, fun h => ?_⟩
  cases b with
  | false => exact ⟨false, by unfold elfValidateUserImage; rw [hb]; rfl⟩
  | true =>
    have hs : Sized img := ⟨h64 rfl, hlen⟩
    by_cases h56 : 56 ≤ phentsize img
    · obtain ⟨r, hr, -⟩ := elfValidateUserImage_decides hs (h hb h56) hb h56
      exact ⟨r, hr⟩
    · refine ⟨false, ?_⟩
      unfold elfValidateUserImage
      rw [hb, ok_bind, if_neg (by simp), elfPhentsize_eq hs, ok_bind, if_pos (by omega)]

/-- A file header alone: one program header, said to start behind the last byte. -/
def headerOnly : Image :=
  [0x7F, 0x45, 0x4C, 0x46, 2, 1, 1, 0, 0, 0, 0, 0, 0, 0, 0, 0,
    2, 0, 62, 0, 1, 0, 0, 0, 0, 0, 0, 0, 0, 0, 0, 0,
    64, 0, 0, 0, 0, 0, 0, 0, 0, 0, 0, 0, 0, 0, 0, 0,
    0, 0, 0, 0, 64, 0, 56, 0, 1, 0, 0, 0, 0, 0, 0, 0]

theorem elf_validate_returns_headerOnly : headerOnly.length < 2 ^ 63 ∧
    ((∃ b, elfValidateUserImage headerOnly = .ok b) ↔
      (elfValidateHeader headerOnly = .ok true → 56 ≤ phentsize headerOnly →
        HeadersInside headerOnly)) :=
  ⟨by decide, elf_validate_returns_iff headerOnly (by decide)⟩

/-- The validator reads the type of that header and halts the kernel. -/
theorem elf_validate_panics : ¬ ∃ b, elfValidateUserImage headerOnly = .ok b := by
  have h : elfValidateUserImage headerOnly = .error "byte offset out of range" := by
    decide +kernel
  rintro ⟨b, hb⟩
  rw [h] at hb
  cases hb

end PcoOs.Elf
