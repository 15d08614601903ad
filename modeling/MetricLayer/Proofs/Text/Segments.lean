import MetricLayer.Text.Path
import Mathlib.Data.List.Basic

/-!
# Segments of paths

Reading a text as a path cuts it at its dots, so no segment holds one and the member is what stands
after the last dot (`isLastSegment_member`). Names in a schema may hold dots all the same: the text
`Entity.member` tells two members apart only where the names are known to be free of dots
(`qualified_inj_of_member`, `qualified_inj_of_dotFree`).
-/

namespace MetricLayer

/-- A name without a dot. -/
def DotFree (s : String) : Prop := '.' ∉ s.toList

instance : DecidablePred DotFree := fun s => inferInstanceAs (Decidable ('.' ∉ s.toList))

namespace Path

/-! ## Cutting a text at its dots -/

theorem dot_notMem_of_split (cs : List Char) :
    (∀ segment ∈ (split cs).1, '.' ∉ segment) ∧ '.' ∉ (split cs).2 := by
  induction cs with
  | nil => simp [split]
  | cons c cs ih =>
    obtain ⟨hbefore, hlast⟩ := ih
    simp only [split]
    split
    · exact ⟨by simpa using hbefore, hlast⟩
    · next hc =>
      have hc : ¬ '.' = c := fun h => hc h.symm
      split
      · exact ⟨by simp, by simp [hc, hlast]⟩
      · next segment rest heq =>
        rw [heq] at hbefore
        refine ⟨?_, hlast⟩
        intro s hs
        rcases List.mem_cons.1 hs with rfl | hs
        · simpa [hc] using hbefore segment (by simp)
        · exact hbefore s (List.mem_cons_of_mem _ hs)

theorem dotFree_of_mem_entities {text s : String} (h : s ∈ (ofText text).entities) : DotFree s := by
  obtain ⟨segment, hsegment, rfl⟩ := List.mem_map.1 h
  simpa [DotFree] using (dot_notMem_of_split text.toList).1 segment hsegment

theorem dotFree_member (text : String) : DotFree (ofText text).member := by
  simpa [DotFree, ofText] using (dot_notMem_of_split text.toList).2

/-! A text without a dot is one segment, and in front of a dot such a text is a segment of its
own. -/

theorem split_append_dot {segment : List Char} (h : '.' ∉ segment) (cs : List Char) :
    split (segment ++ '.' :: cs) = (segment :: (split cs).1, (split cs).2) := by
  induction segment with
  | nil => simp [split]
  | cons c segment ih =>
    obtain ⟨hc, hsegment⟩ := not_or.1 (mt List.mem_cons.2 h)
    rw [List.cons_append, split, ih hsegment]
    simp [Ne.symm hc]

theorem split_of_notMem {cs : List Char} (h : '.' ∉ cs) : split cs = ([], cs) := by
  induction cs with
  | nil => rfl
  | cons c cs ih =>
    obtain ⟨hc, hcs⟩ := not_or.1 (mt List.mem_cons.2 h)
    simp [split, ih hcs, Ne.symm hc]

theorem ofText_of_dotFree {text : String} (h : DotFree text) : ofText text = ⟨[], text⟩ := by
  simp [ofText, split_of_notMem h]

/-! ## Members with their entities -/

theorem toList_qualified (entity member : String) :
    (qualified entity member).toList = entity.toList ++ '.' :: member.toList := by
  simp [qualified]

theorem ofText_qualified {root : String} (h : DotFree root) (rest : String) :
    ofText (qualified root rest) = ⟨root :: (ofText rest).entities, (ofText rest).member⟩ := by
  simp [ofText, toList_qualified, split_append_dot h]

/-- A path of segments without dots is read back from its text. -/
theorem ofText_text {p : Path} (hentities : ∀ s ∈ p.entities, DotFree s)
    (hmember : DotFree p.member) : ofText p.text = p := by
  obtain ⟨entities, member⟩ := p
  induction entities with
  | nil => simpa [text, segments] using ofText_of_dotFree hmember
  | cons first rest ih =>
    obtain ⟨hfirst, hrest⟩ := List.forall_mem_cons.1 hentities
    have htext : text ⟨first :: rest, member⟩ = qualified first (text ⟨rest, member⟩) := by
      simp [text, segments, qualified, String.intercalate_cons_of_ne_nil]
    rw [htext, ofText_qualified hfirst, ih hrest hmember]

theorem exists_root_of_not_dotFree {text : String} (h : ¬ DotFree text) :
    ∃ root rest, DotFree root ∧ text = qualified root rest := by
  obtain ⟨root, rest, htext, hroot⟩ := List.eq_append_cons_of_mem (not_not.1 h)
  refine ⟨String.ofList root, String.ofList rest, by simpa [DotFree] using hroot, ?_⟩
  refine String.toList_injective ?_
  rw [toList_qualified, htext]
  simp

theorem entities_ne_nil_of_not_dotFree {text : String} (h : ¬ DotFree text) :
    (ofText text).entities ≠ [] := by
  obtain ⟨root, rest, hroot, rfl⟩ := exists_root_of_not_dotFree h
  simp [ofText_qualified hroot]

theorem length_segments (p : Path) : p.segments.length = p.entities.length + 1 := by
  simp [segments]

/-- A text has one entity and one member where both are free of dots. -/
theorem qualified_inj_of_dotFree {entity member entity' member' : String}
    (he : DotFree entity) (hm : DotFree member) :
    qualified entity member = qualified entity' member' ↔ entity = entity' ∧ member = member' := by
  rw [← String.toList_inj, toList_qualified, toList_qualified,
    List.append_cons_inj_of_notMem (by exact he) (by exact hm)]
  simp [String.toList_inj]

theorem append_dot_inj {xs ys xs' ys' : List Char} (hy : '.' ∉ ys) (hy' : '.' ∉ ys')
    (h : xs ++ '.' :: ys = xs' ++ '.' :: ys') : xs = xs' ∧ ys = ys' := by
  rcases List.append_eq_append_iff.1 h with ⟨zs, rfl, hzs⟩ | ⟨zs, rfl, hzs⟩
  · cases zs with
    | nil => simpa using hzs
    | cons z zs => exact absurd (by simp_all) hy
  · cases zs with
    | nil => simpa [eq_comm] using hzs
    | cons z zs => exact absurd (by simp_all) hy'

/-- Two members free of dots are told apart by their texts, whatever their entities. -/
theorem qualified_inj_of_member {entity member entity' member' : String}
    (hm : DotFree member) (hm' : DotFree member') :
    qualified entity member = qualified entity' member' ↔ entity = entity' ∧ member = member' := by
  refine ⟨fun h => ?_, fun h => by rw [h.1, h.2]⟩
  rw [← String.toList_inj, toList_qualified, toList_qualified] at h
  obtain ⟨he, hm⟩ := append_dot_inj hm hm' h
  exact ⟨String.toList_injective he, String.toList_injective hm⟩

theorem qualified_inj_right {entity member member' : String} :
    qualified entity member = qualified entity member' ↔ member = member' := by
  rw [← String.toList_inj, toList_qualified, toList_qualified]
  simp [String.toList_inj]

theorem qualified_inj_left {entity entity' member : String} :
    qualified entity member = qualified entity' member ↔ entity = entity' := by
  rw [← String.toList_inj, toList_qualified, toList_qualified]
  simp [String.toList_inj]

end Path

end MetricLayer
