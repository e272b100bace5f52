import InterfaceIndex.SourceFile
import InterfaceIndex.Proofs.Declaration
import Mathlib.Data.List.TakeWhile

/-! The names that are selected: root, package and file, one slash between each two. -/
namespace InterfaceIndex.SourceFile

variable {text package part ending front : List Char} {name root : String} {file : SourceFile}

theorem takeWhile_ne_slash (h : '/' ∉ part) : part.takeWhile (· != '/') = part := by
  apply List.takeWhile_eq_self_iff.mpr
  intro c hc
  have : c ≠ '/' := fun he => h (he ▸ hc)
  simpa using this

theorem splitAtLastSlash_append (h : '/' ∉ part) :
    splitAtLastSlash (package ++ '/' :: part) = some (package, part) := by
  have hall : ∀ c ∈ part.reverse, (c != '/') = true :=
    List.takeWhile_eq_self_iff.mp (takeWhile_ne_slash (by simpa using h))
  have hpart : (part.reverse ++ '/' :: package.reverse).takeWhile (· != '/') = part.reverse := by
    rw [List.takeWhile_append_of_pos hall]
    simp
  have htake : package.length + (part.length + 1) - part.length - 1 = package.length := by omega
  have hlt : part.length < package.length + (part.length + 1) := by omega
  simp [splitAtLastSlash, hpart, htake, hlt]

/-- A split at the last slash leaves no slash behind it. -/
theorem splitAtLastSlash_eq_some_iff : splitAtLastSlash text = some (package, part) ↔
    text = package ++ '/' :: part ∧ '/' ∉ part := by
  constructor
  · intro h
    by_cases hslash : '/' ∈ text
    · obtain ⟨last, first, heq, hlast⟩ :=
        List.eq_append_cons_of_mem (List.mem_reverse.mpr hslash)
      have htext : text = first.reverse ++ '/' :: last.reverse := by
        simpa using congrArg List.reverse heq
      rw [htext, splitAtLastSlash_append (by simpa using hlast)] at h
      obtain ⟨rfl, rfl⟩ := Prod.mk.inj (Option.some.inj h)
      exact ⟨htext, by simpa using hlast⟩
    · have hreverse : '/' ∉ text.reverse := by simpa using hslash
      have hwhole := takeWhile_ne_slash hreverse
      simp [splitAtLastSlash, hwhole] at h
  · rintro ⟨rfl, hpart⟩
    exact splitAtLastSlash_append hpart

/-- An ending without a slash is an ending of the file part. -/
theorem isSuffix_part_iff (h : '/' ∉ ending) : ending <:+ front ++ '/' :: part ↔ ending <:+ part := by
  constructor
  · intro hs
    have hpart : '/' :: part <:+ front ++ '/' :: part := List.suffix_append ..
    rcases List.suffix_or_suffix_of_suffix hs hpart with hs | hp
    · rcases List.suffix_cons_iff.mp hs with rfl | hs
      · simp at h
      · exact hs
    · exact (h (hp.subset List.mem_cons_self)).elim
  · intro hs
    exact (hs.trans (List.suffix_cons '/' part)).trans (List.suffix_append ..)

/-- A file part that is read: a source file, and neither documentation nor test. -/
structure IsReadable (part : List Char) : Prop where
  flat : '/' ∉ part
  source : ".go".toList <:+ part
  not_doc : ¬ "doc.go".toList <:+ part
  not_test : ¬ "_test.go".toList <:+ part

theorem hasSourceEnding_iff (h : '/' ∉ part) :
    hasSourceEnding (front ++ '/' :: part) = true ↔ IsReadable part := by
  simp only [hasSourceEnding, Bool.and_eq_true, Bool.not_eq_true', List.isSuffixOf_iff_suffix,
    ← Bool.not_eq_true, isSuffix_part_iff (show '/' ∉ ".go".toList by decide),
    isSuffix_part_iff (show '/' ∉ "doc.go".toList by decide),
    isSuffix_part_iff (show '/' ∉ "_test.go".toList by decide)]
  exact ⟨fun ⟨⟨hs, hd⟩, ht⟩ => ⟨h, hs, hd, ht⟩, fun hr => ⟨⟨hr.source, hr.not_doc⟩, hr.not_test⟩⟩

/-- A selected name is made of the root, a package and a file part, and nothing else is selected. -/
theorem select?_eq_some_iff : select? name root = some file ↔
    file.path = name ∧ file.package ≠ "" ∧ ∃ part, IsReadable part ∧
      name.toList = root.toList ++ '/' :: (file.package.toList ++ '/' :: part) := by
  constructor
  · intro h
    simp only [select?, Option.ite_none_right_eq_some, Option.bind_eq_bind,
      Option.bind_eq_some_iff, after?_eq_some_iff] at h
    obtain ⟨hending, below, hbelow, relative, rfl, ⟨package, part⟩, hsplit, hfile⟩ := h
    obtain ⟨rfl, hpart⟩ := splitAtLastSlash_eq_some_iff.mp hsplit
    simp only [Option.ite_none_left_eq_some, Option.some.injEq] at hfile
    obtain ⟨hne, rfl⟩ := hfile
    have hname : name.toList = (root.toList ++ '/' :: package) ++ '/' :: part := by
      simpa using hbelow
    refine ⟨rfl, by simpa using hne, part, ?_, by simpa using hbelow⟩
    rw [hname] at hending
    exact (hasSourceEnding_iff hpart).mp hending
  · rintro ⟨rfl, hne, part, hpart, hname⟩
    have hending : hasSourceEnding file.path.toList = true := by
      have hsplit : file.path.toList =
          (root.toList ++ '/' :: file.package.toList) ++ '/' :: part := by
        simpa using hname
      rw [hsplit]
      exact (hasSourceEnding_iff hpart.flat).mpr hpart
    simp only [select?, hending, if_true, Option.bind_eq_bind, Option.bind_eq_some_iff,
      after?_eq_some_iff]
    refine ⟨_, hname, _, rfl, _, splitAtLastSlash_eq_some_iff.mpr ⟨rfl, hpart.flat⟩, ?_⟩
    have hpackage : file.package.toList.isEmpty = false := by simpa using hne
    simp [hpackage]

end InterfaceIndex.SourceFile
