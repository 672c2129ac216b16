import Mathlib.Algebra.Group.Int.Defs
import Hipscope.Dsml.Call
import Hipscope.Text.Chars

/-! The configuration schema: its values, the rules they obey, and the fields. -/
namespace Hipscope.Config
open Text
open Dsml (isWhitespace trim)

abbrev Key := List Char

inductive ConfigValue where
  | bool (v : Bool)
  | integer (v : ℤ)
  | float (v : Float)
  | string (v : List Char)
  | null

/-- The names of the kinds of values. -/
inductive Kind where
  | bool
  | integer
  | number
  | string
  | null
  deriving DecidableEq

namespace ConfigValue

def kind : ConfigValue → Kind
  | .bool _ => .bool
  | .integer _ => .integer
  | .float _ => .number
  | .string _ => .string
  | .null => .null

def asF64 : ConfigValue → Option Float
  | .integer v => some (Float.ofInt v)
  | .float v => some v
  | _ => none

end ConfigValue

inductive ConfigScope where
  | process
  | modelLoad
  | session
  | request
  | diagnostic
  deriving DecidableEq

inductive ValueRule where
  | bool
  | integer (min max : ℤ)
  | float (min max : Float) (minInclusive : Bool)
  | string
  | nonEmptyString
  | host
  | pathOrEmpty
  | enum (values : List String)
  | autoBool
  | nullableString
  | nullableEnum (values : List String)
  | nullableInteger (min max : ℤ)
  | nullableFloat (min max : Float)
  | kvAdaptive
  | deepseek4Placement

structure ConfigField where
  key : Key
  legacyKey : Key
  scope : ConfigScope
  default : ConfigValue
  rule : ValueRule

section Placement

/-- The text before and after the first occurrence of a separator. -/
def splitOnce (s separator : List Char) : Option (List Char × List Char) :=
  (memmem s separator).map fun i => (s.take i, s.drop (i + separator.length))

inductive DeviceSelector where
  | pciBdf (value : List Char)
  | uuid (value : List Char)
  | exactArch (value : List Char)
  deriving DecidableEq

def isHex (part : List Char) (width : ℕ) : Bool :=
  part.length = width && part.all fun c => c.isDigit || ('a' ≤ c && c ≤ 'f') || ('A' ≤ c && c ≤ 'F')

def validPciBdf (value : List Char) : Bool :=
  ((splitOnce value [':']).bind fun domain => (splitOnce domain.2 [':']).bind fun bus =>
    (splitOnce bus.2 ['.']).map fun device =>
      isHex domain.1 4 && isHex bus.1 2 && isHex device.1 2 && isHex device.2 1).getD false

def parseSelector (raw : List Char) : Option DeviceSelector := do
  let (kind, value) ← splitOnce raw [':']
  if value.isEmpty || value.any isWhitespace then none
  else if kind = "pci".toList then
    if validPciBdf value then some (.pciBdf (value.map Char.toLower)) else none
  else if kind = "uuid".toList then some (.uuid value)
  else if kind = "arch".toList then
    if "gfx".toList <+: value then some (.exactArch (value.map Char.toLower)) else none
  else none

inductive Deepseek4ComputePlacement where
  | single
  | denseExpertSplit (dense experts : DeviceSelector)

def parsePlacement (raw : List Char) : Option Deepseek4ComputePlacement :=
  let opening := "dense-expert-split(dense=".toList
  if raw = "single".toList then some .single
  else if opening <+: raw ∧ (raw.drop opening.length).getLast? = some ')' then do
    let (dense, experts) ← splitOnce (raw.drop opening.length).dropLast ",experts=".toList
    let dense ← parseSelector dense
    let experts ← parseSelector experts
    if dense = experts then none else some (.denseExpertSplit dense experts)
  else none

end Placement

def validAdvancedKv (value : List Char) : Bool :=
  let opening := "advanced:k=".toList
  if opening <+: value then
    ((splitOnce (value.drop opening.length) ",v=".toList).map fun kv =>
      ["fwht4", "fwht3", "fwht2"].any (fun k => kv.1 = k.toList) &&
        ["lloyd4", "lloyd3", "lloyd2"].any fun v => kv.2 = v.toList).getD false
  else false

section Validate

def isInteger (min max : ℤ) : ConfigValue → Bool
  | .integer v => min ≤ v && v ≤ max
  | _ => false

def isString (accept : List Char → Bool) : ConfigValue → Bool
  | .string v => accept v
  | _ => false

def isNull : ConfigValue → Bool
  | .null => true
  | _ => false

def isBool : ConfigValue → Bool
  | .bool _ => true
  | _ => false

def oneOf (values : List String) (v : List Char) : Bool := values.any fun name => v = name.toList

/-- Whether a value obeys a rule; `isFile` says which paths, after `~` is expanded, name files. -/
def ValueRule.accepts (isFile : List Char → Bool) (value : ConfigValue) : ValueRule → Bool
  | .bool => isBool value
  | .integer min max => isInteger min max value
  | .float min max minInclusive =>
    value.asF64.any fun v => (if minInclusive then min ≤ v else min < v) && v ≤ max
  | .string => isString (fun _ => true) value
  | .nonEmptyString => isString (fun v => !(trim v).isEmpty) value
  | .host => isString (fun v => !v.isEmpty && (utf8Bytes v).length ≤ 255 && trim v = v && !v.any isWhitespace) value
  | .pathOrEmpty => isString (fun v => v.isEmpty || isFile v) value
  | .enum values => isString (oneOf values) value
  | .autoBool => isBool value || isString (fun v => v = "auto".toList) value
  | .nullableString => isNull value || isString (fun _ => true) value
  | .nullableEnum values => isNull value || isString (oneOf values) value
  | .nullableInteger min max => isNull value || isInteger min max value
  | .nullableFloat min max => isNull value || value.asF64.any fun v => min ≤ v && v ≤ max
  | .kvAdaptive =>
    isString (fun v => oneOf ["off", "conservative", "balanced", "aggressive"] v || validAdvancedKv v) value
  | .deepseek4Placement => isString (fun v => (parsePlacement v).isSome) value

/-- What is wrong with a value or a file. -/
inductive Message where
  | doesNotSatisfy (kind : Kind) (rule : ValueRule)
  | alreadyScalar (head : Key)
  | unsupportedValue (dotted : Key)
  | unsupportedVersion
  | notTable (at_ : Key)
  | notString (at_ : Key)
  | unknownFields (at_ : Key) (fields : List Key)
  | emptyIdentity
  | emptyPath
  | duplicatePath (path : List Char)
  | emptyAlias
  | selfAlias
  | unknownModel (target : Key)
  | developerPerModel
  | notPerModel

inductive ConfigError where
  | unknownKey (key : Key)
  | invalidValue (key : Key) (message : Message)
  | parse (message : Message)

def ConfigField.validate (isFile : List Char → Bool) (self : ConfigField) (value : ConfigValue) :
    Except ConfigError Unit :=
  if self.rule.accepts isFile value then .ok ()
  else .error (.invalidValue self.key (.doesNotSatisfy value.kind self.rule))

end Validate

section Fields

def i64Max : ℤ := 2 ^ 63 - 1

/-- The greatest finite double. -/
def f64Max : Float := 1.7976931348623157e308

def kvModes : List String :=
  ["auto", "f32", "f16", "q8", "asym4", "asym3", "asym2", "fwht4", "fwht3", "fwht2", "turbo", "turbo4", "turbo3",
    "turbo2"]

def autoOnOff : List String := ["auto", "on", "off"]

def thinkingBudgets : List String := ["off", "low", "med", "high", "xhigh", "max", "uncapped"]

def reasoningEfforts : List String := ["auto", "none", "low", "medium", "high", "xhigh", "max"]

def speculationModes : List String := ["off", "auto", "ngram", "dflash", "mtp", "dspark"]

def entry (key legacyKey : String) (scope : ConfigScope) (default : ConfigValue) (rule : ValueRule) : ConfigField :=
  ⟨key.toList, legacyKey.toList, scope, default, rule⟩

/-- The public schema. -/
def schemaFields : List ConfigField :=
  [entry "memory.kv_cache" "kv_cache" .modelLoad (.string "auto".toList) (.enum kvModes),
   entry "memory.kv_adaptive" "kv_adaptive" .modelLoad (.string "off".toList) .kvAdaptive,
   entry "model.deepseek4_experts_per_token" "deepseek4_experts_per_token" .modelLoad .null (.nullableInteger 1 6),
   entry "hardware.deepseek4_compute_placement" "deepseek4_compute_placement" .modelLoad (.string "single".toList)
     .deepseek4Placement,
   entry "attention.flash" "flash_mode" .modelLoad (.string "auto".toList) (.enum ["auto", "always", "never"]),
   entry "serve.default_model" "default_model" .process (.string "qwen3.5:9b".toList) .nonEmptyString,
   entry "serve.local" "local" .process (.bool false) .bool,
   entry "serve.multi_slot" "multi_slot" .process (.bool false) .bool,
   entry "generation.temperature" "temperature" .request (.float 0.3) (.float 0.0 2.0 true),
   entry "generation.top_p" "top_p" .request (.float 0.8) (.float 0.0 1.0 false),
   entry "generation.top_k" "top_k" .request (.integer 20) (.integer 1 100000),
   entry "generation.min_p" "min_p" .request (.float 0.0) (.float 0.0 1.0 true),
   entry "generation.presence_penalty" "presence_penalty" .request (.float 0.0) (.float 0.0 2.0 true),
   entry "generation.repeat_penalty" "repeat_penalty" .request (.float 1.05) (.float 1.0 3.0 true),
   entry "generation.max_tokens" "max_tokens" .request (.integer 4096) (.integer 1 393216),
   entry "memory.max_seq" "max_seq" .modelLoad (.integer 32768) (.integer 512 1048576),
   entry "memory.kv_backend" "kv_backend" .modelLoad (.string "contiguous".toList) (.enum ["contiguous", "vmm"]),
   entry "reasoning.mode" "thinking" .session (.string "on".toList) (.enum ["on", "off"]),
   entry "reasoning.effort" "reasoning_effort" .request (.string "auto".toList) (.enum reasoningEfforts),
   entry "reasoning.budget" "thinking_budget" .request (.string "med".toList) (.enum thinkingBudgets),
   entry "reasoning.max_tokens" "max_think_tokens" .request .null (.nullableInteger 0 393216),
   entry "reasoning.max_total_tokens" "max_total_think_tokens" .request (.integer 0) (.integer 0 1000000),
   entry "serve.host" "host" .process (.string "0.0.0.0".toList) .host,
   entry "serve.port" "port" .process (.integer 11435) (.integer 1 65535),
   entry "serve.idle_timeout_seconds" "idle_timeout" .process (.integer 300) (.integer 0 86400),
   entry "serve.max_request_bytes" "max_request_bytes" .process (.integer 67108864) (.integer 4096 4294967296),
   entry "serve.max_queue" "serve_max_queue" .process (.integer 64) (.integer 0 100000),
   entry "serve.continuous_batch_size" "continuous_batch_size" .process (.integer 1) (.integer 1 128),
   entry "serve.queue_timeout_ms" "serve_queue_timeout_ms" .process (.integer 30000) (.integer 0 3600000),
   entry "serve.retry_enabled" "retry_enabled" .process (.bool false) .bool,
   entry "serve.retry_backoff_ms" "retry_backoff_ms" .process (.integer 50) (.integer 0 60000),
   entry "experimental.budget_alert" "experimental_budget_alert" .request (.bool false) .bool,
   entry "speculation.dflash_adaptive_b" "dflash_adaptive_b" .modelLoad (.bool true) .bool,
   entry "speculation.dflash" "dflash_mode" .modelLoad (.string "off".toList) (.enum autoOnOff),
   entry "speculation.dflash_ngram_block" "dflash_ngram_block" .modelLoad (.string "auto".toList) .autoBool,
   entry "memory.cask.sidecar" "cask_sidecar" .modelLoad (.string "".toList) .string,
   entry "memory.cask.enabled" "cask" .modelLoad (.bool false) .bool,
   entry "memory.cask.budget" "cask_budget" .modelLoad (.integer 512) (.integer 64 65536),
   entry "memory.cask.beta" "cask_beta" .modelLoad (.integer 128) (.integer 0 65536),
   entry "memory.cask.handoff_tokens" "cask_handoff_tokens" .modelLoad (.integer 0) (.integer 0 1048576),
   entry "memory.cask.core_fraction" "cask_core_frac" .modelLoad (.float 0.5) (.float 0.0 1.0 true),
   entry "memory.cask.fold" "cask_fold_m" .modelLoad (.integer 2) (.integer 1 16),
   entry "memory.cask.auto_attach" "cask_auto_attach" .modelLoad (.bool false) .bool,
   entry "prompt.normalize" "prompt_normalize" .request (.bool true) .bool,
   entry "prompt.system" "system_prompt" .request (.string "".toList) .string,
   entry "memory.mmq.screen" "mmq_screen" .modelLoad (.string "auto".toList) (.enum autoOnOff),
   entry "memory.mmq.screen_threshold" "mmq_screen_threshold" .modelLoad (.float 0.1) (.float 0.0 1.0 false),
   entry "memory.prompt_cache_capacity" "prompt_cache_capacity" .process (.integer 32) (.integer 0 1048576),
   entry "memory.prompt_cache_unbounded" "prompt_cache_unbounded" .process (.bool false) .bool,
   entry "speculation.prefill.mode" "prefill_compression" .modelLoad (.string "off".toList)
     (.enum ["off", "auto", "always"]),
   entry "speculation.prefill.threshold" "prefill_threshold" .modelLoad (.integer 32768) (.integer 0 1048576),
   entry "speculation.prefill.keep_ratio" "prefill_keep_ratio" .modelLoad (.float 0.05) (.float 0.0 1.0 false),
   entry "speculation.prefill.alpha" "prefill_alpha" .modelLoad (.float 0.85) (.float 0.0 1.0 true),
   entry "speculation.prefill.min_keep" "prefill_min_keep" .modelLoad (.integer 2048) (.integer 0 1048576),
   entry "speculation.prefill.sink" "prefill_sink" .modelLoad (.integer 256) (.integer 0 65536),
   entry "speculation.prefill.recent" "prefill_recent" .modelLoad (.integer 1024) (.integer 0 65536),
   entry "speculation.prefill.block" "prefill_block" .modelLoad (.integer 128) (.integer 1 4096),
   entry "speculation.prefill.drafter" "prefill_drafter" .modelLoad (.string "".toList) .string,
   entry "speculation.prefill.drafter_device" "prefill_drafter_device" .modelLoad (.integer (-1))
     (.integer (-1) 15),
   entry "speculation.prefill.profile" "prefill_profile" .diagnostic (.bool false) .bool,
   entry "speculation.prefill.sparse_threshold" "prefill_sparse_threshold" .modelLoad (.integer 32768)
     (.integer 0 1048576),
   entry "speculation.prefill.drafter_kv" "prefill_drafter_kv" .modelLoad (.string "q8".toList)
     (.enum ["q8", "fwht4", "fwht3", "fwht2"]),
   entry "diagnostic.pflash.score_layer" "pflash_score_layer" .diagnostic .null (.nullableInteger 0 65535),
   entry "speculation.mtp" "mtp_mode" .modelLoad (.string "auto".toList) (.enum autoOnOff),
   entry "speculation.mtp_k" "mtp_k" .modelLoad (.integer 3) (.integer 1 10),
   entry "speculation.mode" "speculation" .modelLoad (.string "auto".toList) (.enum speculationModes),
   entry "speculation.dspark_confidence" "dspark_conf_threshold" .modelLoad .null (.nullableFloat 0.0 1.0),
   entry "speculation.ngram" "ngram_mode" .modelLoad (.string "off".toList) (.enum ["auto", "on", "off", "1", "0"]),
   entry "speculation.ngram_k" "ngram_k" .modelLoad (.integer 12) (.integer 2 32),
   entry "speculation.ngram_min_count" "ngram_min_count" .modelLoad (.integer 2) (.integer 1 10),
   entry "speculation.ddtree_budget" "ddtree_budget" .modelLoad (.integer 0) (.integer 0 64),
   entry "speculation.ddtree_topk" "ddtree_topk" .modelLoad (.integer 4) (.integer 1 8),
   entry "prompt.chat_template" "chat_template" .modelLoad (.string "".toList) .pathOrEmpty,
   entry "prompt.default_chatml" "default_chatml" .modelLoad (.bool true) .bool,
   entry "hardware.devices" "devices" .process .null .nullableString,
   entry "hardware.uniform_vram_tolerance_gb" "uniform_vram_tolerance_gb" .process .null
     (.nullableFloat (-f64Max) f64Max),
   entry "generation.loop_guard_threshold" "ngram_loop_threshold" .process (.integer 0) (.integer 0 i64Max),
   entry "generation.loop_guard_window" "ngram_window" .process (.integer 256) (.integer 0 i64Max),
   entry "kernel.flash_partials_batch" "flash_partials_batch" .process .null (.nullableInteger 0 65536),
   entry "kernel.lm_head_f16" "lm_head_f16" .process (.string "auto".toList)
     (.enum ["auto", "native", "f16", "1", "f32", "fp32", "legacy", "0"]),
   entry "diagnostic.prompt_heat_limit" "prompt_heat_limit" .diagnostic (.integer 64) (.integer 0 i64Max),
   entry "diagnostic.kernel.gemv_rows" "gemv_rows" .diagnostic .null (.nullableEnum ["1", "2", "4", "8"]),
   entry "diagnostic.kernel.fp16_layer_min" "fp16_layer_min" .diagnostic .null (.nullableInteger 0 i64Max),
   entry "diagnostic.kernel.fp16_layer_max" "fp16_layer_max" .diagnostic .null (.nullableInteger 0 i64Max),
   entry "diagnostic.kernel.hfq3_mmq_layer_min" "hfq3_mmq_layer_min" .diagnostic .null (.nullableInteger 0 i64Max),
   entry "diagnostic.kernel.hfq3_mmq_layer_max" "hfq3_mmq_layer_max" .diagnostic .null (.nullableInteger 0 i64Max),
   entry "diagnostic.kernel.mmq_min_batch" "mmq_min_batch" .diagnostic .null (.nullableInteger 0 i64Max),
   entry "diagnostic.kernel.rocblas_min_batch" "rocblas_min_batch" .diagnostic .null (.nullableInteger 0 i64Max),
   entry "diagnostic.kernel.ddtree_logw_cutoff" "ddtree_logw_cutoff" .diagnostic .null (.nullableFloat 0.0 f64Max),
   entry "diagnostic.kernel.lloyd_mb4" "lloyd_mb4" .diagnostic .null (.nullableEnum ["1", "2", "4"]),
   entry "diagnostic.kernel.mq3_mb4" "mq3_mb4" .diagnostic .null (.nullableEnum ["1", "2", "4"]),
   entry "diagnostic.kernel.gate_up_variant" "gate_up_variant" .diagnostic .null
     (.nullableEnum ["ldsx", "k4", "ldscoop", "2tile"]),
   entry "diagnostic.kernel.gfx11_weight_load_policy" "gfx11_weight_load_policy" .diagnostic .null
     (.nullableEnum ["buffer", "global", "flat-buffer"]),
   entry "diagnostic.kernel.gfx12_weight_load_policy" "gfx12_weight_load_policy" .diagnostic .null
     (.nullableEnum ["rt", "global", "ht", "nt-rt", "nt-ht"]),
   entry "diagnostic.kernel.gfx942_mfma_prefill" "gfx942_mfma_prefill" .diagnostic .null
     (.nullableEnum ["1", "2", "3", "4"]),
   entry "diagnostic.kernel.rdna2_variant" "rdna2_variant" .diagnostic .null (.nullableInteger 1 5),
   entry "diagnostic.kernel.wo_wmma_variant" "wo_wmma_variant" .diagnostic .null
     (.nullableEnum ["ksplit", "ksplit_det", "k2", "k2x32", "k4", "wmma", "wmma2"]),
   entry "diagnostic.compiler.hipcc_extra_flags" "hipcc_extra_flags" .diagnostic (.string "".toList) .string,
   entry "hardware.allow_mixed_arch" "allow_mixed_arch" .process (.bool false) .bool,
   entry "hardware.tp_use_rccl" "tp_use_rccl" .process (.bool true) .bool,
   entry "kernel.prefill_batched" "prefill_batched" .process (.bool true) .bool,
   entry "speculation.draft_f16" "draft_f16" .process (.bool true) .bool,
   entry "diagnostic.prompt_token_heat" "prompt_token_heat" .diagnostic (.bool false) .bool,
   entry "diagnostic.prompt_heat_json" "prompt_heat_json" .diagnostic (.bool false) .bool,
   entry "diagnostic.draft_gemm_dump" "draft_gemm_dump" .diagnostic (.bool false) .bool,
   entry "diagnostic.draft_subphase" "draft_subphase" .diagnostic (.bool false) .bool,
   entry "kernel.gemv_dp4a" "gemv_dp4a" .process (.string "auto".toList) .autoBool,
   entry "kernel.gemv_prefetch" "gemv_prefetch" .process (.string "auto".toList) .autoBool,
   entry "kernel.gfx942_lds_gemv" "gfx942_lds_gemv" .process (.string "auto".toList) .autoBool,
   entry "kernel.hfq3_dp4a" "hfq3_dp4a" .process (.string "auto".toList) .autoBool,
   entry "kernel.hfq3_mmq" "hfq3_mmq" .process (.string "auto".toList) .autoBool,
   entry "kernel.hfq4_mmq_rdna2" "hfq4_mmq_rdna2" .process (.string "auto".toList) .autoBool,
   entry "kernel.gcn5_wave64_hybrid" "gcn5_wave64_hybrid" .process (.string "auto".toList) .autoBool,
   entry "kernel.mmq" "mmq" .process (.string "auto".toList) .autoBool,
   entry "kernel.gfx942_gemv_v2" "gfx942_gemv_v2" .process (.string "auto".toList) .autoBool,
   entry "kernel.moe_grouped_i8" "moe_grouped_i8" .process (.string "auto".toList) .autoBool,
   entry "kernel.moe_paro_i8" "moe_paro_i8" .process (.string "auto".toList) .autoBool,
   entry "kernel.moe_paro_i8_k8" "moe_paro_i8_k8" .process (.string "auto".toList) .autoBool,
   entry "kernel.rdna3_hfq4_qkvza_k2048" "rdna3_hfq4_qkvza_k2048" .process (.string "auto".toList) .autoBool,
   entry "kernel.rdna3_hfq4_residual_stage_x32" "rdna3_hfq4_residual_stage_x32" .process (.string "auto".toList)
     .autoBool,
   entry "kernel.rdna3_hfq4_sigmoid_buffer" "rdna3_hfq4_sigmoid_buffer" .process (.string "auto".toList) .autoBool,
   entry "kernel.rdna3_rmsnorm_vecsum" "rdna3_rmsnorm_vecsum" .process (.string "auto".toList) .autoBool,
   entry "kernel.fp8_wmma" "fp8_wmma" .process (.bool false) .bool,
   entry "kernel.dot2_gemv" "dot2_gemv" .process (.bool false) .bool,
   entry "kernel.rdna3_hfq4_qkv_wave64" "rdna3_hfq4_qkv_wave64" .process (.bool false) .bool,
   entry "kernel.rdna3_hfq4_qkvza_2wave" "rdna3_hfq4_qkvza_2wave" .process (.bool false) .bool,
   entry "kernel.rdna3_hfq4_qkvza_wavepack4" "rdna3_hfq4_qkvza_wavepack4" .process (.bool false) .bool,
   entry "kernel.rdna3_hfq4_qkvza_ldsx8" "rdna3_hfq4_qkvza_ldsx8" .process (.bool false) .bool,
   entry "kernel.rdna3_hfq4_qkvza_reduce_chain" "rdna3_hfq4_qkvza_reduce_chain" .process (.bool false) .bool,
   entry "kernel.rdna3_hfq4_qkvza_hoist_x32" "rdna3_hfq4_qkvza_hoist_x32" .process (.bool false) .bool,
   entry "kernel.rdna3_hfq4_residual_k2048" "rdna3_hfq4_residual_k2048" .process (.bool false) .bool,
   entry "kernel.rdna3_hfq4_sigmoid_tight_grid" "rdna3_hfq4_sigmoid_tight_grid" .process (.bool false) .bool,
   entry "kernel.rdna3_hfq4_sigmoid_rows4" "rdna3_hfq4_sigmoid_rows4" .process (.bool false) .bool,
   entry "kernel.rdna3_hfq4_lm_head_k2048" "rdna3_hfq4_lm_head_k2048" .process (.bool false) .bool,
   entry "kernel.rdna3_hfq4_moe_gate_up_k2048" "rdna3_hfq4_moe_gate_up_k2048" .process (.bool false) .bool,
   entry "kernel.fp16" "fp16" .process (.bool true) .bool,
   entry "kernel.wo_mmq" "wo_mmq" .process (.bool false) .bool,
   entry "kernel.lm_head_wmma" "lm_head_wmma" .process (.bool true) .bool,
   entry "kernel.lm_head_overwrite" "lm_head_overwrite" .process (.bool false) .bool,
   entry "diagnostic.mmq_quantize_only" "mmq_diag_quantize_only" .diagnostic (.bool false) .bool,
   entry "kernel.hfq4g128_mmq" "hfq4g128_mmq" .process (.bool true) .bool,
   entry "kernel.hfq4_mmq_gfx906_y64" "hfq4_mmq_gfx906_y64" .process (.bool false) .bool,
   entry "kernel.gate_up_nosync" "gate_up_nosync" .process (.bool false) .bool,
   entry "kernel.qkvza_split_tail" "qkvza_split_tail" .process (.bool false) .bool,
   entry "kernel.gfx942_gemv_v3" "gfx942_gemv_v3" .process (.bool false) .bool,
   entry "kernel.gfx942_rmsnorm_split" "gfx942_rmsnorm_split" .process (.string "auto".toList) .autoBool,
   entry "kernel.rmsnorm_mq_tight_lds" "rmsnorm_mq_tight_lds" .process (.bool false) .bool,
   entry "kernel.rdna3_rmsnorm_wavegrid" "rdna3_rmsnorm_wavegrid" .process (.bool false) .bool,
   entry "kernel.rdna3_rmsnorm_split" "rdna3_rmsnorm_split" .process (.bool false) .bool,
   entry "kernel.rdna3_rmsnorm_sign_lds" "rdna3_rmsnorm_sign_lds" .process (.bool false) .bool,
   entry "kernel.rdna3_rmsnorm_sign_const" "rdna3_rmsnorm_sign_const" .process (.bool false) .bool,
   entry "kernel.moe_grouped_i8_k8" "moe_grouped_i8_k8" .process (.bool false) .bool,
   entry "kernel.moe_grouped_i8_k4" "moe_grouped_i8_k4" .process (.bool false) .bool,
   entry "kernel.moe_grouped_i8_k4_gfx12" "moe_grouped_i8_k4_gfx12" .process (.bool false) .bool,
   entry "kernel.moe_grouped_m2" "moe_grouped_m2" .process (.bool false) .bool,
   entry "kernel.moe_grouped_4w" "moe_grouped_4w" .process (.bool false) .bool,
   entry "kernel.moe_down_combine_vec4" "moe_down_combine_vec4" .process (.bool false) .bool,
   entry "kernel.moe_hfq6_i8" "moe_hfq6_i8" .process (.bool false) .bool,
   entry "kernel.moe_hfq6_v2" "moe_hfq6_v2" .process (.bool false) .bool,
   entry "kernel.moe_grouped_gemm" "moe_grouped_gemm" .process (.bool true) .bool,
   entry "diagnostic.blob_force" "blob_force" .diagnostic (.bool false) .bool,
   entry "diagnostic.gemm_dump" "gemm_dump" .diagnostic (.bool false) .bool,
   entry "experimental.graph.forward" "graph_forward" .process (.string "auto".toList) .autoBool,
   entry "experimental.graph.ar" "graph_ar" .process (.bool true) .bool,
   entry "experimental.graph.moe" "graph_moe" .process (.bool true) .bool,
   entry "kernel.deterministic" "deterministic" .process (.bool false) .bool,
   entry "kernel.mw16" "mw16" .process (.bool false) .bool,
   entry "kernel.q8_batched_legacy" "q8_batched_legacy" .process (.bool false) .bool,
   entry "kernel.deepseek4_q8_wmma" "deepseek4_q8_wmma" .process (.bool true) .bool,
   entry "kernel.deepseek4_q8_4w" "deepseek4_q8_4w" .process (.bool true) .bool,
   entry "kernel.rope_interleaved_legacy" "rope_interleaved_legacy" .process (.bool false) .bool,
   entry "kernel.rocblas_all_archs" "rocblas_all_archs" .process (.bool false) .bool,
   entry "kernel.rocblas_off" "rocblas_off" .process (.bool false) .bool,
   entry "kernel.lloyd_force_baseline" "lloyd_force_baseline" .process (.bool false) .bool,
   entry "fusions.force_unfused" "force_unfused" .process (.bool false) .bool,
   entry "speculation.dflash_tree" "dflash_tree" .process (.bool false) .bool,
   entry "speculation.ddtree_tree_la" "ddtree_tree_la" .process (.bool true) .bool,
   entry "speculation.dflash_fast_sample" "dflash_fast_sample" .process (.bool true) .bool,
   entry "speculation.dflash_q8_lmhead_wmma" "dflash_q8_lmhead_wmma" .process (.bool true) .bool,
   entry "fusions.qkv_bias" "fuse_qkv_bias" .process (.bool true) .bool,
   entry "diagnostic.qkv_bias" "fuse_qkv_bias_debug" .diagnostic (.bool false) .bool,
   entry "replay.backend" "replay_backend" .process (.string "auto".toList)
     (.enum ["auto", "hip", "redline", "shadow", "off"]),
   entry "replay.transport" "replay_transport" .process (.string "auto".toList)
     (.enum ["auto", "aql", "pm4", "pm4_ib", "ib"]),
   entry "diagnostic.replay.route_proof_log" "replay_route_proof_log" .diagnostic (.bool false) .bool,
   entry "diagnostic.replay.manual_capture" "replay_manual_capture" .diagnostic (.bool false) .bool,
   entry "diagnostic.replay.pool_debug" "replay_pool_debug" .diagnostic (.bool false) .bool,
   entry "diagnostic.replay.dispatch_profile" "replay_dispatch_profile" .diagnostic (.bool false) .bool,
   entry "diagnostic.compiler.no_device_compiler" "no_device_compiler" .diagnostic (.bool false) .bool,
   entry "diagnostic.replay.pm4_min_parallel_width" "replay_pm4_min_parallel_width" .diagnostic (.integer 2)
     (.integer 2 1024),
   entry "diagnostic.replay.pm4_min_parallel_workgroups" "replay_pm4_min_parallel_workgroups" .diagnostic (.integer 0)
     (.integer 0 i64Max),
   entry "diagnostic.replay.pm4_max_parallel_phases" "replay_pm4_max_parallel_phases" .diagnostic .null
     (.nullableInteger 0 i64Max),
   entry "diagnostic.replay.pm4_native_phases" "replay_pm4_native_phases" .diagnostic (.bool false) .bool,
   entry "diagnostic.replay.pm4_queues" "replay_pm4_queues" .diagnostic (.string "1".toList)
     (.enum ["1", "2", "4", "auto"]),
   entry "diagnostic.replay.pm4_register_policy" "replay_pm4_stateful" .diagnostic (.string "static".toList)
     (.enum ["legacy", "static", "stateful"]),
   entry "diagnostic.replay.pm4_wait_policy" "replay_pm4_wait_policy" .diagnostic (.string "resource".toList)
     (.enum ["allowlist", "resource-audit", "resource"]),
   entry "diagnostic.replay.pm4_acquire_policy" "replay_pm4_acquire_policy" .diagnostic (.string "required-only".toList)
     (.enum ["conservative", "entry-only", "required-only", "without-repeat-interleave",
     "without-fused-silu-rotate", "without-mq-rotate", "without-rope"]),
   entry "diagnostic.replay.pm4_gcr_trim" "replay_pm4_gcr_trim" .diagnostic (.bool true) .bool,
   entry "replay.pm4_gfx11_vmem_acquire" "replay_pm4_gfx11_vmem_acquire" .process (.string "auto".toList) .autoBool,
   entry "diagnostic.replay.gfx1151_initiator" "gfx1151_pm4_initiator" .diagnostic (.string "legacy".toList)
     (.enum ["legacy", "order", "radv"]),
   entry "diagnostic.replay.gfx1151_interleave" "gfx1151_pm4_interleave" .diagnostic (.string "inherit".toList)
     (.enum ["inherit", "off", "64", "128", "256", "512"]),
   entry "diagnostic.replay.gfx1151_resource_limits" "gfx1151_pm4_resource_limits" .diagnostic (.string "legacy".toList)
     (.enum ["legacy", "simd-always", "radv"]),
   entry "diagnostic.replay.gfx1151_cu_count" "gfx1151_redline_cu_count" .diagnostic (.string "all".toList) .string,
   entry "diagnostic.replay.gfx1151_entry_acquire" "gfx1151_pm4_entry_acquire" .diagnostic (.string "system".toList)
     (.enum ["system", "agent", "vmem", "none"]),
   entry "diagnostic.replay.pm4_dynamic_grid" "replay_pm4_dynamic_grid" .diagnostic (.bool false) .bool,
   entry "fusions.policy" "fusion_policy" .modelLoad (.string "safe".toList) (.enum ["safe", "off"])]

/-- The field of a canonical or a legacy key. -/
def field (key : Key) : Option ConfigField :=
  schemaFields.find? fun candidate => candidate.key = key || candidate.legacyKey = key

end Fields
end Hipscope.Config
