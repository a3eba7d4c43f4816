import IndexNotation.Command.Files
import IndexNotation.Proofs.Cells
import IndexNotation.Proofs.JsonTexts
import IndexNotation.Proofs.Ranges
import IndexNotation.Proofs.Residues

/-!
# Arrays in data files

A data file holds an array as nested lists of its cells and does not name the shape. If no dimension
is zero, the nesting tells the shape, so an array of integers is read back from the file that was
written for it.
-/

namespace IndexNotation

open Run (exec)

/-! ## Rows -/

/-- Row number `k` of cells that stand side by side, `size` in each row. -/
def row {α : Type} (size k : Nat) (cells : List α) : List α :=
  (cells.drop (k * size)).take size

section

variable {α β : Type} {n size : Nat} {cells : List α}

theorem length_row (h : cells.length = n * size) {k : Nat} (hk : k < n) : (row size k cells).length = size := by
  have hend : (k + 1) * size ≤ n * size := Nat.mul_le_mul_right size hk
  rw [Nat.succ_mul] at hend
  rw [row, List.length_take, List.length_drop, h]
  omega

theorem map_row (f : α → β) (k : Nat) : (row size k cells).map f = row size k (cells.map f) := by
  rw [row, row, List.map_take, List.map_drop]

/-- The rows make up the cells. -/
theorem flatMap_row (hsize : 0 < size) (h : cells.length = n * size) :
    (List.range n).flatMap (row size · cells) = cells := by
  have hrow (k : Nat) : row size k cells = (cells.take (k * size + size)).drop (k * size) := by
    rw [row, List.take_drop]
  rw [List.flatMap_congr fun k _ => hrow k, Range.flatMap_take_drop cells hsize, ← h, List.take_length]

end

theorem cellCount_pos {shape : List Nat} (h : ∀ n ∈ shape, 1 ≤ n) : 0 < cellCount shape := by
  induction shape with
  | nil => exact Nat.one_pos
  | cons n shape ih =>
    obtain ⟨hn, hshape⟩ := List.forall_mem_cons.1 h
    rw [cellCount_cons]
    exact Nat.mul_pos hn (ih hshape)

namespace Json

theorem ofCells_cons (n : Nat) (shape : List Nat) (cells : List Json) :
    ofCells (n :: shape) cells = .list ((List.range n).map fun k => ofCells shape (row (cellCount shape) k cells)) := by
  rw [ofCells]
  rfl

variable {shape : List Nat} {data : List Int}

/-- The tree of an array of integers is made of lists and integers. -/
theorem nested_ofCells (hdata : data.length = cellCount shape) : (ofCells shape (data.map .int)).Nested := by
  induction shape generalizing data with
  | nil =>
    obtain ⟨n, rfl⟩ := List.length_eq_one_iff.1 hdata
    exact .int n
  | cons n shape ih =>
    rw [cellCount_cons] at hdata
    rw [ofCells_cons]
    refine .list fun v hv => ?_
    obtain ⟨k, hk, rfl⟩ := List.mem_map.1 hv
    rw [← map_row]
    exact ih (length_row hdata (List.mem_range.1 hk))

/-! ## Shapes from nesting -/

theorem nestAll_map {α : Type} {f : α → Json} {g : α → Dense.Nest} {as : List α}
    (h : ∀ a ∈ as, (f a).nest = pure (g a)) : nest.nestAll (as.map f) = pure (as.map g) := by
  induction as with
  | nil => rfl
  | cons a as ih =>
    obtain ⟨ha, has⟩ := List.forall_mem_cons.1 h
    rw [List.map_cons, nest.nestAll, ha, pure_bind, ih has, pure_bind, List.map_cons]

end Json

namespace Dense

/-- An array of integers taken apart. -/
def intNest (shape : List Nat) (data : List Int) : Nest :=
  ⟨shape, data.map fun n => leafType (.int n), data.map .int⟩

/-- Parts of one shape side by side. -/
theorem joinNests_eq {shape : List Nat} {ns : List Nest} (hne : ns ≠ []) (h : ∀ n ∈ ns, n.shape = shape) :
    joinNests ns = .ok ⟨ns.length :: shape, ns.flatMap (·.types), ns.flatMap (·.cells)⟩ := by
  cases ns with
  | nil => exact absurd rfl hne
  | cons n ns =>
    obtain ⟨rfl, hns⟩ := List.forall_mem_cons.1 h
    rw [joinNests, if_pos (by simpa using hns)]
    rfl

/-- The rows of an array side by side are the array. -/
theorem joinNests_rows {n : Nat} {shape : List Nat} {data : List Int} (hn : 1 ≤ n) (hshape : ∀ m ∈ shape, 1 ≤ m)
    (hdata : data.length = n * cellCount shape) :
    joinNests ((List.range n).map fun k => intNest shape (row (cellCount shape) k data)) =
      .ok (intNest (n :: shape) data) := by
  have hrows := flatMap_row (cellCount_pos hshape) hdata
  have hshapes : ∀ m ∈ (List.range n).map fun k => intNest shape (row (cellCount shape) k data), m.shape = shape :=
    List.forall_mem_map.2 fun _ _ => rfl
  rw [joinNests_eq (by simpa using Nat.ne_of_gt hn) hshapes]
  simp only [intNest, List.length_map, List.length_range, List.flatMap_map, ← List.map_flatMap, hrows]

variable {n : Int} {shape : List Nat} {data : List Int}

theorem leafType_of_fits (h : IntType.fits .int64 n) : leafType (.int n) = .int .int64 := if_pos h

theorem castCell_of_fits (h : IntType.fits .int64 n) :
    castCell (.int .int64) (.int n) = .scalar (.int .int64 n) := by
  have hleaf : leafScalar? (.int n) = some (.int .int64 n) := if_pos h
  unfold castCell
  rw [hleaf]
  exact congrArg (fun m => Value.scalar (.int .int64 m)) (IntType.wrap_of_fits h)

/-- Integers that fit are put together as an array of their type. -/
theorem ofNest_intNest (hrank : shape.length ≤ maxRank) (hne : data ≠ []) (hfits : ∀ n ∈ data, IntType.fits .int64 n) :
    ofNest (intNest shape data) = .ok ⟨.int .int64, shape, data.map fun n => .scalar (.int .int64 n)⟩ := by
  have htypes : data.map (fun n => leafType (.int n)) = data.map fun _ => .int .int64 :=
    List.map_congr_left fun n hn => leafType_of_fits (hfits n hn)
  have hcells : (data.map Value.int).map (castCell (.int .int64)) = data.map fun n => .scalar (.int .int64 n) := by
    rw [List.map_map]
    exact List.map_congr_left fun n hn => castCell_of_fits (hfits n hn)
  obtain ⟨n, ns, rfl⟩ := List.exists_cons_of_ne_nil hne
  have htype : (ns.map fun _ => ElemType.int .int64).foldl ElemType.promote (.int .int64) = .int .int64 := by
    rw [List.foldl_map]
    exact List.foldl_fixed' (fun _ => rfl) ns
  simp only [ofNest, intNest, htypes, if_neg (Nat.not_lt.2 hrank), List.map_cons, htype]
  simp only [List.map_cons] at hcells
  rw [hcells]

end Dense

namespace Json

variable {shape : List Nat} {data : List Int}

/-- The tree of an array of integers is taken apart into the shape of the array and its cells. -/
theorem nest_ofCells (hshape : ∀ n ∈ shape, 1 ≤ n) (hdata : data.length = cellCount shape) :
    (ofCells shape (data.map .int)).nest = pure (Dense.intNest shape data) := by
  induction shape generalizing data with
  | nil =>
    obtain ⟨n, rfl⟩ := List.length_eq_one_iff.1 hdata
    rfl
  | cons n shape ih =>
    obtain ⟨hn, hshape⟩ := List.forall_mem_cons.1 hshape
    rw [cellCount_cons] at hdata
    have hrow : ∀ k ∈ List.range n, (ofCells shape (row (cellCount shape) k (data.map .int))).nest =
        pure (Dense.intNest shape (row (cellCount shape) k data)) := by
      intro k hk
      rw [← map_row]
      exact ih hshape (length_row hdata (List.mem_range.1 hk))
    rw [ofCells_cons, nest, nestAll_map hrow, pure_bind, Dense.joinNests_rows hn hshape hdata]
    rfl

theorem toDense_ofCells (hshape : ∀ n ∈ shape, 1 ≤ n) (hrank : shape.length ≤ Dense.maxRank)
    (hdata : data.length = cellCount shape) (hfits : ∀ n ∈ data, IntType.fits .int64 n) :
    (ofCells shape (data.map .int)).toDense =
      pure ⟨.int .int64, shape, data.map fun n => .scalar (.int .int64 n)⟩ := by
  have hne : data ≠ [] := by
    rw [← List.length_pos_iff, hdata]
    exact cellCount_pos hshape
  rw [toDense, nest_ofCells hshape hdata, pure_bind, Dense.ofNest_intNest hrank hne hfits]
  rfl

/-- The tree of an array of integers. -/
theorem ofDense?_ints (h : Heap) :
    ofDense? h ⟨.int .int64, shape, data.map fun n => .scalar (.int .int64 n)⟩ =
      .ok (ofCells shape (data.map .int)) := by
  have hcells : (data.map fun n => Value.scalar (.int .int64 n)).mapM (ofCell? h (.int .int64)) =
      .ok (data.map .int) := by
    induction data with
    | nil => rfl
    | cons n ns ih =>
      rw [List.map_cons, List.mapM_cons, ih]
      rfl
  rw [ofDense?, hcells]
  rfl

end Json

/-! ## Paths -/

namespace Command.Path

theorem endsWith_iff {p : Path} {s : String} : p.endsWith s = true ↔ s.toList <:+ p.text.toList := by
  rw [endsWith, List.isPrefixOf_iff_prefix, List.reverse_prefix]

/-- The ending of a path is the end of its last name. -/
theorem ending_suffix_name (p : Path) : p.ending.toList <:+ p.name.toList := by
  unfold ending
  dsimp only
  split
  · rename_i h
    simp only [Bool.and_eq_true, decide_eq_true_eq, List.length_reverse] at h
    have hsplit := List.takeWhile_append_dropWhile (p := (· != '.')) (l := p.name.toList.reverse)
    have hpoint := List.head?_dropWhile_not (· != '.') p.name.toList.reverse
    generalize p.name.toList.reverse.takeWhile (· != '.') = tail, p.name.toList.reverse.dropWhile (· != '.') = front
      at h hsplit hpoint
    cases front with
    | nil =>
      -- Without a point the tail is the whole name, which is too long for an ending.
      have hlength := congrArg List.length hsplit
      simp only [List.append_nil, List.length_reverse] at hlength
      omega
    | cons c front =>
      have hc : c = '.' := by simpa using hpoint
      rw [String.toList_ofList, ← List.reverse_prefix, ← hsplit, hc]
      exact ⟨front, by simp⟩
  · exact List.nil_suffix

theorem getLastD_suffix_intercalate (separator : String) (names : List String) :
    (names.getLastD "").toList <:+ (separator.intercalate names).toList := by
  induction names with
  | nil => exact List.nil_suffix
  | cons n names ih =>
    cases names with
    | nil => simp
    | cons m names =>
      rw [String.intercalate_cons_cons, String.toList_append]
      exact ih.trans (List.suffix_append _ _)

theorem name_suffix_text (p : Path) : p.name.toList <:+ p.text.toList := by
  have hnames := getLastD_suffix_intercalate "/" p.names
  unfold text
  dsimp only
  split
  · rw [String.toList_append]
    exact hnames.trans (List.suffix_append _ _)
  · split
    · rename_i hempty
      rw [name, List.isEmpty_iff.1 hempty]
      exact List.nil_suffix
    · exact hnames

/-- Splitting a text does not touch the end of it that has no separator. -/
theorem splitOnP_append {p : Char → Bool} {suffix : List Char} (h : ∀ c ∈ suffix, p c = false) (cs : List Char) :
    ∃ front piece, (cs ++ suffix).splitOnP p = front ++ [piece ++ suffix] := by
  induction cs with
  | nil => exact ⟨[], [], by simpa using List.splitOnP_eq_singleton h⟩
  | cons c cs ih =>
    obtain ⟨front, piece, hsplit⟩ := ih
    rw [List.cons_append, List.splitOnP_cons_eq_if_modifyHead, hsplit]
    split
    · exact ⟨[] :: front, piece, rfl⟩
    · cases front with
      | nil => exact ⟨[], c :: piece, rfl⟩
      | cons first front => exact ⟨(c :: first) :: front, piece, rfl⟩

/-- What a text ends with, the path that it spells ends with, if that is part of a name. -/
theorem suffix_text_ofString {s : String} {suffix : List Char} (hs : suffix <:+ s.toList) (hslash : '/' ∉ suffix)
    (hlength : 2 ≤ suffix.length) : suffix <:+ (ofString s).text.toList := by
  obtain ⟨cs, hs⟩ := hs
  have hplain : ∀ c ∈ suffix, (c == '/') = false := by
    intro c hc
    rw [beq_eq_false_iff_ne]
    rintro rfl
    exact hslash hc
  obtain ⟨front, piece, hsplit⟩ := splitOnP_append hplain cs
  have hlong : 2 ≤ (String.ofList (piece ++ suffix)).length := by
    rw [String.length_ofList, List.length_append]
    omega
  have hother {t : String} (ht : t.length < 2) : (String.ofList (piece ++ suffix) != t) = true := by
    rw [bne_iff_ne]
    intro heq
    rw [heq] at hlong
    omega
  have hkept : (String.ofList (piece ++ suffix) != "" && String.ofList (piece ++ suffix) != ".") = true := by
    rw [hother (by decide), hother (by decide)]
    rfl
  have hname : (ofString s).name = String.ofList (piece ++ suffix) := by
    simp only [name, ofString, ← hs, hsplit, List.map_append, List.map_cons, List.map_nil, List.filter_append]
    rw [List.filter_cons, if_pos hkept]
    simp
  refine List.IsSuffix.trans ?_ (name_suffix_text _)
  rw [hname, String.toList_ofList]
  exact List.suffix_append _ _

/-- A path with the ending of data files is one in small letters, too, and has no other ending. -/
theorem endsWith_of_ending {p : Path} (h : p.ending.toLower = ".json") :
    (ofString p.text.toLower).endsWith ".npz" = false ∧ (ofString p.text.toLower).endsWith ".json" = true := by
  have hending : ".json".toList <:+ p.text.toLower.toList := by
    have hsuffix := (p.ending_suffix_name.trans p.name_suffix_text).map Char.toLower
    rw [← String.toList_map, ← String.toList_map] at hsuffix
    rw [← h]
    exact hsuffix
  have hjson : ".json".toList <:+ (ofString p.text.toLower).text.toList :=
    suffix_text_ofString hending (by decide) (by decide)
  refine ⟨Bool.eq_false_iff.2 fun hnpz => ?_, endsWith_iff.2 hjson⟩
  have hboth := List.suffix_of_suffix_length_le (endsWith_iff.1 hnpz) hjson (by decide)
  exact absurd hboth (by decide)

end Command.Path

/-! ## Files -/

namespace Command.Files

theorem encode_json {p : Path} (hp : p.ending.toLower = ".json") (h : Heap) {d : Dense} {j : Json}
    (hd : Json.ofDense? h d = .ok j) : encode h p d = .ok (p, .text (j.render 0)) := by
  obtain ⟨hnpz, hjson⟩ := Path.endsWith_of_ending hp
  unfold encode
  dsimp only
  rw [hnpz, hjson, hd]
  rfl

theorem readContent_json {p : Path} (hp : p.ending.toLower = ".json") (s : String) :
    readContent p (.text s) = readJson s := by
  unfold readContent
  rw [hp]
  rfl

/-- **An array of integers is read back from its data file.** Writing it fails only if there can be no file
at the path. From the text that is written the same array is read, with its shape, its type and its cells in
order, whatever its rank and its dimensions are, as long as none of them is zero. -/
theorem read_written_ints (fs : Files) (h : Heap) {out : String} (hout : (Path.ofString out).ending.toLower = ".json")
    {shape : List Nat} (hshape : ∀ n ∈ shape, 1 ≤ n) (hrank : shape.length ≤ Dense.maxRank) {data : List Int}
    (hdata : data.length = cellCount shape) (hfits : ∀ n ∈ data, IntType.fits .int64 n) :
    ∃ text,
      fs.write h out ⟨.int .int64, shape, data.map fun n => .scalar (.int .int64 n)⟩ =
        (do
          fs.checkDirectory (Path.ofString out).parent
          fs.checkFile (Path.ofString out)
          return ((Path.ofString out).text, .text text)) ∧
      ∀ w, exec (readContent (Path.ofString out) (.text text)) w =
        (.ok ⟨.int .int64, shape, data.map fun n => .scalar (.int .int64 n)⟩, w) := by
  refine ⟨(Json.ofCells shape (data.map .int)).render 0, ?_, fun w => ?_⟩
  · unfold write
    dsimp only
    rw [encode_json hout h (Json.ofDense?_ints h)]
    rfl
  · rw [readContent_json hout, readJson, (Json.nested_ofCells hdata).read?_render]
    dsimp only
    rw [Json.toDense_ofCells hshape hrank hdata hfits]
    rfl

/-- Six integers in two rows of one row of three, one of them the least of its type. -/
theorem read_written_ints_cube :
    ∃ text,
      write {} #[] "out/cube.JSON" ⟨.int .int64, [2, 1, 3],
        [1, -2, 30, 0, 5, -9223372036854775808].map fun n => .scalar (.int .int64 n)⟩ =
          .ok ("out/cube.JSON", .text text) ∧
      ∀ w, exec (readContent (Path.ofString "out/cube.JSON") (.text text)) w =
        (.ok ⟨.int .int64, [2, 1, 3], [1, -2, 30, 0, 5, -9223372036854775808].map fun n => .scalar (.int .int64 n)⟩,
          w) := by
  have hout : (Path.ofString "out/cube.JSON").ending.toLower = ".json" := by decide +kernel
  have hshape : ∀ n ∈ [2, 1, 3], 1 ≤ n := by decide
  have hdata : ([1, -2, 30, 0, 5, -9223372036854775808] : List Int).length = cellCount [2, 1, 3] := by decide
  obtain ⟨text, hwrite, hread⟩ := read_written_ints {} #[] hout hshape (by decide) hdata (by decide)
  exact ⟨text, hwrite, hread⟩

end Command.Files

end IndexNotation
