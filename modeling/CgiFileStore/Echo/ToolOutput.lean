import CgiFileStore.Echo.Main

/-!
# What the FastDFS commands print

The id of an upload is the output of one command and the host of its URL a part of the output
of another. Neither text is looked at before it is searched and copied. The main result says
for which outputs the id and the URL are the ones meant.
-/

namespace CgiFileStore

open CSem Search Redis Transition

/-! ## What is meant -/

/-- An output without the line feed at its end, if there is one. -/
def chomp (output : List Byte) : List Byte :=
  if output.getLast? = some 10 then output.dropLast else output

/-- The text between the first key and the line feed behind it. -/
def hostOf (info : List Byte) : Option (List Byte) :=
  match firstOcc sourceIpKey info with
  | none => none
  | some p =>
    let text := info.drop (p + sourceIpKey.length)
    (firstOcc lf text).map text.take

/-- `http://ip/id`. -/
def urlOf (ip id : List Byte) : List Byte := ascii "http://" ++ ip ++ ascii "/" ++ id

theorem length_urlOf (ip id : List Byte) : (urlOf ip id).length = ip.length + id.length + 8 := by
  have h1 : (ascii "http://").length = 7 := by decide
  have h2 : (ascii "/").length = 1 := by decide
  simp only [urlOf, List.length_append, h1, h2]
  omega

theorem zero_notMem_urlOf {ip id : List Byte} (hip : 0 ∉ ip) (hid : 0 ∉ id) : 0 ∉ urlOf ip id := by
  have h1 : 0 ∉ ascii "http://" := by decide
  have h2 : 0 ∉ ascii "/" := by decide
  simp [urlOf, h1, h2, hip, hid]

theorem hostOf_eq_some_iff {info ip : List Byte} :
    hostOf info = some ip ↔ ∃ p n, firstOcc sourceIpKey info = some p ∧
      firstOcc lf (info.drop (p + sourceIpKey.length)) = some n ∧
        (info.drop (p + sourceIpKey.length)).take n = ip := by
  unfold hostOf
  cases firstOcc sourceIpKey info <;> simp

theorem hostOf_mem {info ip : List Byte} (h : hostOf info = some ip) {c : Byte} (hc : c ∈ ip) :
    c ∈ info := by
  obtain ⟨p, n, -, -, rfl⟩ := hostOf_eq_some_iff.mp h
  exact List.mem_of_mem_drop (List.mem_of_mem_take hc)

/-- Text behind the line feed does not change the host. -/
theorem hostOf_append {info ip : List Byte} (h : hostOf info = some ip) (t : List Byte) :
    hostOf (info ++ t) = some ip := by
  obtain ⟨p, n, hp, hn, hip⟩ := hostOf_eq_some_iff.mp h
  have hle := firstOcc_add_length_le hp
  have hlt := firstOcc_add_length_le hn
  refine hostOf_eq_some_iff.mpr ⟨p, n, firstOcc_append hp t, ?_, ?_⟩
  · rw [List.drop_append_of_le_length hle]
    exact firstOcc_append hn t
  · rw [List.drop_append_of_le_length hle, List.take_append_of_le_length (by omega)]
    exact hip

/-- The host of the string that an output begins with is the host of the output. -/
theorem hostOf_of_cstring {info ip : List Byte} (h : hostOf (cstring info) = some ip) :
    hostOf info = some ip := by
  obtain ⟨t, ht⟩ := cstring_isPrefix info
  rw [← ht]
  exact hostOf_append h t

theorem chomp_line (id : List Byte) : chomp (id ++ lf) = id := by
  have hlast : (id ++ lf).getLast? = some 10 := List.getLast?_concat
  rw [chomp, if_pos hlast]
  exact List.dropLast_concat

theorem cstring_line {id : List Byte} (h0 : 0 ∉ id) : cstring (id ++ lf) = id ++ lf :=
  cstring_eq_self (by simp [h0, lf])

/-- The string at the start of an output loses its last byte: this is the output without its
line feed only if the output is one line. -/
theorem dropLast_cstring_eq_chomp_iff {output : List Byte} (h : cstring output ≠ []) :
    (cstring output).dropLast = chomp output ↔ ∃ id, output = id ++ lf ∧ 0 ∉ id := by
  have hle := (cstring_isPrefix output).length_le
  have hpos := List.length_pos_iff.mpr h
  constructor
  · intro heq
    have hlen := congrArg List.length heq
    unfold chomp at heq hlen
    split_ifs at heq hlen with hlast
    · obtain ⟨id, rfl⟩ := List.getLast?_eq_some_iff.mp hlast
      refine ⟨id, rfl, ?_⟩
      rw [List.dropLast_concat] at heq
      rw [← heq]
      exact fun h0 => zero_notMem_cstring _ (List.mem_of_mem_dropLast h0)
    · rw [List.length_dropLast] at hlen
      omega
  · rintro ⟨id, rfl, h0⟩
    rw [chomp_line, cstring_line h0]
    exact List.dropLast_concat

/-! ## What is done -/

section

variable {output info fileIdFdfs id : List Byte}

theorem memcpy_zeros_take (n : Nat) (s : List Byte) :
    memcpy (zeros n) 0 (s.take n) = .ok (padTo n s) := by
  rw [memcpy_zero (by rw [length_zeros]; exact List.length_take_le n s), padTo, zeros,
    List.drop_replicate, List.length_take, zeros]
  congr 3
  omega

/-- The id is the string of the output without its last byte. -/
theorem recvFileUpload_eq (hne : cstring output ≠ []) (hlt : (cstring output).length < 256) :
    ∃ fileIdFdfs, recvFileUpload true output (zeros 256) = .ok (0, fileIdFdfs) ∧
      readString fileIdFdfs = .ok (cstring output).dropLast := by
  have hread := readString_padTo 256 output
  rw [if_pos hlt] at hread
  obtain ⟨t, ht⟩ := eq_append_of_readString hread
  have hlen : strlen (padTo 256 output) = .ok ((cstring output).dropLast.length + 1) := by
    have hpos := List.length_pos_iff.mpr hne
    rw [strlen, hread, List.length_dropLast, Nat.sub_add_cancel hpos]
    rfl
  have hsplit : padTo 256 output =
      (cstring output).dropLast ++ (cstring output).getLast hne :: 0 :: t := by
    rw [ht]
    conv_lhs => rw [← List.dropLast_append_getLast hne]
    simp
  have h0 : 0 ∉ (cstring output).dropLast := fun h =>
    zero_notMem_cstring output (List.mem_of_mem_dropLast h)
  have hstore : store (padTo 256 output) (cstring output).dropLast.length 0 =
      .ok ((cstring output).dropLast ++ 0 :: 0 :: t) := by
    rw [hsplit, store_of_lt (by simp), List.set_append_right _ _ le_rfl, Nat.sub_self,
      List.set_cons_zero]
  refine ⟨_, ?_, readString_append_zero h0 (0 :: t)⟩
  simp only [recvFileUpload, if_true, maxFileIdFdfs, memcpy_zeros_take, ok_bind, hlen, hstore,
    pure_eq_ok]

/-- An output that is empty or fills the array leads to an access outside of it. -/
theorem recvFileUpload_eq_ok {r : Int × List Byte}
    (h : recvFileUpload true output (zeros 256) = .ok r) :
    cstring output ≠ [] ∧ (cstring output).length < 256 := by
  simp only [recvFileUpload, if_true, maxFileIdFdfs, memcpy_zeros_take, ok_bind, strlen,
    readString_padTo] at h
  split_ifs at h with hlt
  · refine ⟨?_, hlt⟩
    intro hnil
    simp [hnil, Except.map] at h
  · simp [Except.map] at h

/-- The four appends to the cleared array. -/
theorem strcat_urlOf {ip : List Byte} (hip : 0 ∉ ip) (hid : 0 ∉ id) :
    (do
      let url ← strcat (zeros 256) (ascii "http://")
      let url ← strcat url ip
      let url ← strcat url (ascii "/")
      let url ← strcat url id
      return ((0 : Int), url)) =
      if (urlOf ip id).length < 256 then
        .ok (0, urlOf ip id ++ zeros (256 - (urlOf ip id).length))
      else .error .write := by
  have h1 : 0 ∉ ascii "http://" := by decide
  have h2 : 0 ∉ ascii "/" := by decide
  have hfold := foldlM_strcat [ascii "http://", ip, ascii "/", id] List.not_mem_nil
    (by decide : 0 < 256) (by simp [h1, h2, hip, hid])
  have hflat : [ascii "http://", ip, ascii "/", id].flatten = urlOf ip id := by simp [urlOf]
  rw [hflat, List.nil_append, List.nil_append] at hfold
  calc _ = [ascii "http://", ip, ascii "/", id].foldlM strcat (zeros 256) >>=
        fun url => return ((0 : Int), url) := by
          simp only [List.foldlM_cons, List.foldlM_nil, bind_assoc, pure_bind]
    _ = _ := by
          rw [hfold]
          split_ifs <;> rfl

/-- The copy of the host name to its cleared array. -/
theorem copyHost {text t ip : List Byte} {n : Nat} (h0 : 0 ∉ ip) (hn : n ≤ text.length)
    (hip : text.take n = ip) :
    (strncpy (zeros 128) 0 (text ++ t) n >>= fun hostName => store hostName n 0) =
      if ip.length < 128 then .ok (ip ++ 0 :: (zeros 128).drop (ip.length + 1))
      else .error .write := by
  have hlen : n = ip.length := by rw [← hip, List.length_take_of_le hn]
  have htext : text ++ t = ip ++ (text.drop n ++ t) := by
    rw [← hip, ← List.append_assoc, List.take_append_drop]
  rw [htext, hlen]
  split_ifs with hfit
  · exact strncpy_store h0 (by simpa using hfit)
  · exact strncpy_store_overrun h0 (by simpa using hfit)

/-- The URL of a host and an id that fit, for an output that leaves a NUL in its buffer. -/
theorem fileUrlMake_eq (hid : readString fileIdFdfs = .ok id) :
    fileUrlMake info fileIdFdfs (zeros 256) =
      if (cstring info).length < 512 then
        match hostOf (cstring info) with
        | none => .error .null
        | some ip =>
          if ip.length < 128 ∧ (urlOf ip id).length < 256 then
            .ok (0, urlOf ip id ++ zeros (256 - (urlOf ip id).length))
          else .error .write
      else .error .read := by
  have hread := readString_padTo 512 info
  rw [fileUrlMake, memcpy_zeros_take, ok_bind, hread]
  split_ifs with hlt
  · rw [if_pos hlt] at hread
    obtain ⟨hmem, hstring⟩ := readString_eq_ok hread
    rw [ok_bind, strstr_of_mem hmem, ← hstring, ok_bind, hostOf]
    cases hp : firstOcc sourceIpKey (cstring info) with
    | none => rfl
    | some p =>
      have hle := firstOcc_add_length_le hp
      rw [hstring] at hle
      dsimp only
      rw [strstr_of_mem (zero_mem_drop hmem hle), cstring_drop hle, ← hstring, ok_bind]
      cases hn : firstOcc lf ((cstring info).drop (p + sourceIpKey.length)) with
      | none => rfl
      | some n =>
        have hip := hostOf_eq_some_iff.mpr ⟨p, n, hp, hn, rfl⟩
        have hip0 : 0 ∉ ((cstring info).drop (p + sourceIpKey.length)).take n := fun h =>
          zero_notMem_cstring info (hostOf_mem hip h)
        obtain ⟨t, ht⟩ := cstring_isPrefix ((padTo 512 info).drop (p + sourceIpKey.length))
        rw [cstring_drop hle, ← hstring] at ht
        have hcopy := copyHost hip0 (by have := firstOcc_add_length_le hn; omega) (t := t) rfl
        dsimp only [Option.map]
        rw [← ht, ← bind_assoc, hcopy]
        split_ifs with hhost hboth hboth
        · simp only [ok_bind, readString_append_zero hip0, hid]
          rw [strcat_urlOf hip0 (zero_notMem_of_readString hid), if_pos hboth.2]
        · simp only [ok_bind, readString_append_zero hip0, hid]
          rw [strcat_urlOf hip0 (zero_notMem_of_readString hid), if_neg]
          exact fun h => hboth ⟨hhost, h⟩
        · exact absurd hboth.1 hhost
        · rfl
  · rfl

end

/-! ## The two calls of a round -/

section

variable {S : Type}

theorem length_recvFileUpload {pipeOk : Bool} {output fileIdFdfs : List Byte}
    {r : Int × List Byte} (h : recvFileUpload pipeOk output fileIdFdfs = .ok r) :
    r.2.length = fileIdFdfs.length := by
  unfold recvFileUpload at h
  split at h
  · obtain ⟨buf, hbuf, h⟩ := bind_eq_ok.mp h
    obtain ⟨n, -, h⟩ := bind_eq_ok.mp h
    cases n with
    | zero => cases h
    | succ n =>
      obtain ⟨buf', hbuf', h⟩ := bind_eq_ok.mp h
      obtain rfl : (0, buf') = r := by simpa using h
      exact (length_store hbuf').trans (length_memcpy hbuf)
  · obtain rfl : (-1, fileIdFdfs) = r := by simpa using h
    rfl

theorem length_fileUrlMake {output fileIdFdfs fileUrlFdfs : List Byte} {r : Int × List Byte}
    (h : fileUrlMake output fileIdFdfs fileUrlFdfs = .ok r) :
    r.2.length = fileUrlFdfs.length := by
  obtain ⟨statBuf, -, h⟩ := bind_eq_ok.mp h
  obtain ⟨_, -, h⟩ := bind_eq_ok.mp h
  obtain ⟨p, -, h⟩ := bind_eq_ok.mp h
  cases p with
  | none => cases h
  | some p =>
    obtain ⟨n, -, h⟩ := bind_eq_ok.mp h
    cases n with
    | none => cases h
    | some n =>
      obtain ⟨_, -, h⟩ := bind_eq_ok.mp h
      obtain ⟨_, -, h⟩ := bind_eq_ok.mp h
      obtain ⟨url1, hurl1, h⟩ := bind_eq_ok.mp h
      obtain ⟨_, -, h⟩ := bind_eq_ok.mp h
      obtain ⟨url2, hurl2, h⟩ := bind_eq_ok.mp h
      obtain ⟨url3, hurl3, h⟩ := bind_eq_ok.mp h
      obtain ⟨_, -, h⟩ := bind_eq_ok.mp h
      obtain ⟨url4, hurl4, h⟩ := bind_eq_ok.mp h
      obtain rfl : (0, url4) = r := by simpa using h
      exact (length_strcat hurl4).trans ((length_strcat hurl3).trans
        ((length_strcat hurl2).trans (length_strcat hurl1)))

/-- The arrays of the id and of the URL as each round leaves them behind. -/
structure IdsCleared (s : EchoState S) : Prop where
  fileIdFdfs : s.fileIdFdfs = zeros 256
  fileUrlFdfs : s.fileUrlFdfs = zeros 256

theorem idsCleared_of_run [Score S] {files : Files} {st : Store S} {history : List Request}
    {s : EchoState S} (hrun : Run (EchoState.initial files st) Processed history s) :
    IdsCleared s := by
  have hinit : IdsCleared (EchoState.initial files st) := ⟨rfl, rfl⟩
  refine hrun.invariant hinit ?_
  rintro s req s' ⟨hid, hurl⟩ hstep
  obtain ⟨-, -, fileIdFdfs, fileUrlFdfs, -, -, hrecv, hmake, -, -, -, hid', hurl', -⟩ :=
    processed_inv hstep
  have hlenId : fileIdFdfs.length = 256 := by rw [length_recvFileUpload hrecv, hid, length_zeros]
  have hlenUrl : fileUrlFdfs.length = 256 := by rw [length_fileUrlMake hmake, hurl, length_zeros]
  have hclear : ∀ {buf buf' : List Byte}, buf.length = 256 → memset0 buf 256 = .ok buf' →
      buf' = zeros 256 := by
    intro buf buf' hlen hbuf
    rw [(memset0_eq_ok.mp hbuf).2, List.drop_eq_nil_of_le hlen.le, List.append_nil]
  exact ⟨hclear hlenId hid', hclear hlenUrl hurl'⟩

/-- No access leaves an array, and unless one of the two calls returns an error, the id is the
line printed by `fdfs_upload_file` and the URL the one of this id on the host printed by
`fdfs_file_info`. -/
def ToolsReported (req : Request) (s : EchoState S) : Prop :=
  ∃ ret fileIdFdfs,
    recvFileUpload req.pipeOk req.uploadOutput s.fileIdFdfs = .ok (ret, fileIdFdfs) ∧
      (ret = 0 → ∃ ret' fileUrlFdfs,
        fileUrlMake req.infoOutput fileIdFdfs s.fileUrlFdfs = .ok (ret', fileUrlFdfs) ∧
          (ret' = 0 → chomp req.uploadOutput ≠ [] ∧
            readString fileIdFdfs = .ok (chomp req.uploadOutput) ∧
              ∃ ip, hostOf req.infoOutput = some ip ∧
                readString fileUrlFdfs = .ok (urlOf ip (chomp req.uploadOutput))))

/-- One line of at most 255 bytes from `fdfs_upload_file`, and from `fdfs_file_info` a text of
at most 511 bytes that names a host. -/
structure UsableOutput (uploadOutput infoOutput id ip : List Byte) : Prop where
  line : uploadOutput = id ++ lf
  id_ne_nil : id ≠ []
  id_nul_free : 0 ∉ id
  length_id : id.length < 255
  length_info : (cstring infoOutput).length < 512
  host : hostOf (cstring infoOutput) = some ip
  length_ip : ip.length < 128
  length_url : ip.length + id.length < 248

/-- In every round that is reached, the outcome of the two calls is the one meant exactly if no
pipe can be made or both outputs are usable. -/
theorem toolsReported_iff [Score S] (files : Files) (st : Store S) (history : List Request)
    (s : EchoState S) (hrun : Run (EchoState.initial files st) Processed history s)
    (req : Request) :
    ToolsReported req s ↔
      req.pipeOk = false ∨ ∃ id ip, UsableOutput req.uploadOutput req.infoOutput id ip := by
  obtain ⟨hidBuf, hurlBuf⟩ := idsCleared_of_run hrun
  rw [ToolsReported, hidBuf, hurlBuf]
  cases hpipe : req.pipeOk with
  | false => simp [recvFileUpload]
  | true =>
    simp only [Bool.true_eq_false, false_or]
    constructor
    · rintro ⟨ret, fileIdFdfs, hrecv, hmake⟩
      obtain ⟨hne, hlt⟩ := recvFileUpload_eq_ok hrecv
      obtain ⟨fileIdFdfs', hrecv', hid⟩ := recvFileUpload_eq hne hlt
      obtain ⟨rfl, rfl⟩ : ret = 0 ∧ fileIdFdfs = fileIdFdfs' := by
        simpa using hrecv.symm.trans hrecv'
      obtain ⟨ret', fileUrlFdfs, hmake, hmeant⟩ := hmake rfl
      rw [fileUrlMake_eq hid] at hmake
      split_ifs at hmake with hinfo
      cases hhost : hostOf (cstring req.infoOutput) with
      | none => simp [hhost] at hmake
      | some ip =>
        simp only [hhost] at hmake
        split_ifs at hmake with hfits
        obtain ⟨rfl, -⟩ : ret' = 0 ∧ _ := by simpa [eq_comm] using hmake
        obtain ⟨hidNe, hidRead, -⟩ := hmeant rfl
        rw [hid, Except.ok.injEq] at hidRead
        obtain ⟨id, hline, h0⟩ := (dropLast_cstring_eq_chomp_iff hne).mp hidRead
        have hchomp : chomp req.uploadOutput = id := by rw [hline, chomp_line]
        have hlen : (cstring req.uploadOutput).length = id.length + 1 := by
          rw [hline, cstring_line h0]
          exact List.length_append
        rw [length_urlOf, hidRead, hchomp] at hfits
        exact ⟨id, ip, hline, hchomp ▸ hidNe, h0, by omega, hinfo, hhost, hfits.1, by omega⟩
    · rintro ⟨id, ip, h⟩
      have hstring := cstring_line h.id_nul_free
      have hdrop : (id ++ lf).dropLast = id := List.dropLast_concat
      have hlen : (id ++ lf).length = id.length + 1 := List.length_append
      have hid := h.length_id
      have hurl := h.length_url
      have hip0 : 0 ∉ ip := fun h0 => zero_notMem_cstring _ (hostOf_mem h.host h0)
      rw [h.line, chomp_line]
      have hne : cstring (id ++ lf) ≠ [] := by
        rw [hstring]
        simp [lf]
      have hlt : (cstring (id ++ lf)).length < 256 := by
        rw [hstring]
        omega
      obtain ⟨fileIdFdfs, hrecv, hread⟩ := recvFileUpload_eq hne hlt
      rw [hstring, hdrop] at hread
      have hmake : fileUrlMake req.infoOutput fileIdFdfs (zeros 256) =
          .ok (0, urlOf ip id ++ zeros (256 - (urlOf ip id).length)) := by
        rw [fileUrlMake_eq hread, if_pos h.length_info, h.host]
        exact if_pos ⟨h.length_ip, by rw [length_urlOf]; omega⟩
      have hurlRead := readString_append_zeros (zero_notMem_urlOf hip0 h.id_nul_free)
        (by rw [length_urlOf]; omega : 0 < 256 - (urlOf ip id).length)
      exact ⟨0, fileIdFdfs, hrecv, fun _ => ⟨0, _, hmake, fun _ =>
        ⟨h.id_ne_nil, hread, ip, hostOf_of_cstring h.host, hurlRead⟩⟩⟩

end

/-- Behind the first upload, the same outputs once more. -/
theorem toolsReported_iff_crlfUpload :
    ∃ s, Run firstState Processed [crlfUpload] s ∧
      (ToolsReported crlfUpload s ↔ crlfUpload.pipeOk = false ∨
        ∃ id ip, UsableOutput crlfUpload.uploadOutput crlfUpload.infoOutput id ip) := by
  obtain ⟨s, hrun, -⟩ := exists_processed_crlfUpload
  exact ⟨s, hrun, toolsReported_iff (fun _ => none) (emptyStore Nat) _ s hrun crlfUpload⟩

/-- An upload for which `fdfs_upload_file` prints nothing. -/
def silentUpload : Request := { crlfUpload with uploadOutput := [] }

/-- The NUL is written in front of the array of the id. -/
theorem toolsReported_silent :
    Run firstState Processed [] firstState ∧
      recvFileUpload silentUpload.pipeOk silentUpload.uploadOutput firstState.fileIdFdfs =
        .error .write ∧ ¬ ToolsReported silentUpload firstState := by
  have hrecv : recvFileUpload silentUpload.pipeOk silentUpload.uploadOutput
      firstState.fileIdFdfs = .error .write := by decide +kernel
  refine ⟨.nil, hrecv, ?_⟩
  rintro ⟨ret, fileIdFdfs, h, -⟩
  rw [hrecv] at h
  cases h

end CgiFileStore
