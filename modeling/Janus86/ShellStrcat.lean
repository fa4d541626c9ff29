import Janus86.ShellTokens

/-!
# Joining two arguments

`load` and `dump` join a switch and the argument behind it with `strcat`, which
stores into `sc` while it reads there.  The NUL between the two arguments keeps
the store behind the read, and the joined string ends in front of the NUL of the
second one.
-/

namespace Janus86
namespace Shell

open ZeroTerminated

theorem cutInto_strcat {a : ArgArrays} {strings : List (ℕ × List UInt8)}
    (h : CutInto cmdLen a strings) {p q : ℕ × List UInt8} (hp : strings[1]? = some p)
    (hq : strings[2]? = some q) :
    ∃ sc', Janus86.strcat (cmdLen + 1) a.sc p.1 q.1 = .ok sc' ∧
      StringAt sc' p.1 (p.2 ++ q.2) ∧
      ∀ k r, strings[k]? = some r → k ≠ 1 → k ≠ 2 → StringAt sc' r.1 r.2 := by
  have hfirst := h.string_at p (List.mem_of_getElem? hp)
  have hsecond := h.string_at q (List.mem_of_getElem? hq)
  have hinside := h.inside q (List.mem_of_getElem? hq)
  have hbehind := h.apart (by decide) hp hq
  obtain ⟨sc', hrun, hjoined, hframe⟩ :=
    @strcat_ok (cmdLen + 1) a.sc p.1 q.1 p.2 q.2 hfirst hsecond hbehind (by omega)
  refine ⟨sc', hrun, hjoined, fun k r hr hone htwo => ?_⟩
  refine (h.string_at r (List.mem_of_getElem? hr)).congr fun i hle hge => hframe i ?_
  rw [List.length_append]
  by_cases hk : k = 0
  · have hlt := h.apart (show k < 1 by omega) hr hp
    omega
  · have hlt := h.apart (show 2 < k by omega) hq hr
    omega

/-- In a line with three arguments or more `strcat(argv[1], argv[2])` makes the
second argument the concatenation of the two; only these two are changed. -/
theorem strcat_arguments (a : ArgArrays) {line : List UInt8}
    (hfit : (cString line).length ≤ cmdLen)
    (hvisible : ∀ c ∈ (cString line).head?, Visible c)
    (hthree : 3 ≤ (tokens (cString line)).length) :
    ∃ a' s1 s2 first second sc',
      genArgs a line = .ok (some (tokens (cString line)).length, a') ∧
      a'.argtable 1 = some s1 ∧ a'.argtable 2 = some s2 ∧
      (tokens (cString line))[1]? = some first ∧
      (tokens (cString line))[2]? = some second ∧
      StringAt a'.sc s1 first ∧ StringAt a'.sc s2 second ∧
      strcat (cmdLen + 1) a'.sc s1 s2 = .ok sc' ∧
      StringAt sc' s1 (first ++ second) ∧
      ∀ k token, (tokens (cString line))[k]? = some token → k ≠ 1 → k ≠ 2 →
        ∃ o, a'.argtable k = some o ∧ StringAt a'.sc o token ∧ StringAt sc' o token := by
  obtain ⟨a', strings, hrun, hstrings, hcut, _⟩ :=
    genArgs_cutInto a hfit hvisible
  rw [← hstrings, List.length_map] at hthree
  obtain ⟨p, hp⟩ : ∃ p, strings[1]? = some p :=
    ⟨_, List.getElem?_eq_getElem (by omega)⟩
  obtain ⟨q, hq⟩ : ∃ q, strings[2]? = some q :=
    ⟨_, List.getElem?_eq_getElem (by omega)⟩
  obtain ⟨sc', hstrcat, hjoined, hothers⟩ := cutInto_strcat hcut hp hq
  have htoken : ∀ (k : ℕ) (r : ℕ × List UInt8), strings[k]? = some r →
      (tokens (cString line))[k]? = some r.2 := by
    intro k r hr
    rw [← hstrings, List.getElem?_map, hr]
    rfl
  refine ⟨a', p.1, q.1, p.2, q.2, sc', hrun, hcut.pointers 1 p hp,
    hcut.pointers 2 q hq, htoken 1 p hp, htoken 2 q hq,
    hcut.string_at p (List.mem_of_getElem? hp),
    hcut.string_at q (List.mem_of_getElem? hq), hstrcat, hjoined, ?_⟩
  intro k token hk hone htwo
  rw [← hstrings, List.getElem?_map, Option.map_eq_some_iff] at hk
  obtain ⟨r, hr, rfl⟩ := hk
  exact ⟨r.1, hcut.pointers k r hr, hcut.string_at r (List.mem_of_getElem? hr),
    hothers k r hr hone htwo⟩

/-- `a -f b c`: the switch and the name with one space between them. -/
theorem strcat_arguments_load :
    ∃ a' s1 s2 first second sc',
      genArgs emptyArrays [97, 32, 45, 102, 32, 98, 32, 99] =
        .ok (some (tokens (cString [97, 32, 45, 102, 32, 98, 32, 99])).length, a') ∧
      a'.argtable 1 = some s1 ∧ a'.argtable 2 = some s2 ∧
      (tokens (cString [97, 32, 45, 102, 32, 98, 32, 99]))[1]? = some first ∧
      (tokens (cString [97, 32, 45, 102, 32, 98, 32, 99]))[2]? = some second ∧
      StringAt a'.sc s1 first ∧ StringAt a'.sc s2 second ∧
      strcat (cmdLen + 1) a'.sc s1 s2 = .ok sc' ∧
      StringAt sc' s1 (first ++ second) ∧
      ∀ k token, (tokens (cString [97, 32, 45, 102, 32, 98, 32, 99]))[k]? = some token →
        k ≠ 1 → k ≠ 2 →
        ∃ o, a'.argtable k = some o ∧ StringAt a'.sc o token ∧ StringAt sc' o token :=
  strcat_arguments emptyArrays (by decide) (by decide +kernel) (by decide)

end Shell
end Janus86
