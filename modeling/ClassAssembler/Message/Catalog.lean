import ClassAssembler.Value

/-!
# Messages

A wording holds places for arguments, marked with a percent sign and a letter.
-/

namespace ClassAssembler

inductive Language where
  | english
  | chinese
deriving DecidableEq, Repr, Inhabited

structure Message where
  id : String
  english : String
  chinese : String
deriving Repr, Inhabited

namespace Message

/-! ## Failures of the assembler -/

def badApi : Message where
  id := "asm.bad_api"
  english :=
    "unsupported api level %d"
  chinese :=
    "不支持的 API 级别 %d"

def badVersion : Message where
  id := "asm.bad_version"
  english :=
    "unsupported class file version %d.%d"
  chinese :=
    "不支持的类文件版本 %d.%d"

def badConstant : Message where
  id := "asm.bad_constant"
  english :=
    "value of type %T cannot be a constant"
  chinese :=
    "类型 %T 的值不能作为常量"

def insnBeforeCode : Message where
  id := "asm.insn_before_code"
  english :=
    "instruction visited before VisitCode"
  chinese :=
    "在 VisitCode 之前访问了指令"

def visitAfterEnd : Message where
  id := "asm.visit_after_end"
  english :=
    "%s visited after VisitEnd"
  chinese :=
    "在 VisitEnd 之后调用了 %s"

def duplicateFrame : Message where
  id := "asm.duplicate_frame"
  english :=
    "two frames at bytecode offset %d"
  chinese :=
    "字节码偏移 %d 处有两个帧"

def unresolvedLabel : Message where
  id := "asm.unresolved_label"
  english :=
    "label %s is not resolved"
  chinese :=
    "标签 %s 尚未解析"

def maxsTwice : Message where
  id := "asm.maxs_twice"
  english :=
    "VisitMaxs called more than once"
  chinese :=
    "VisitMaxs 被调用了多次"

def badArgument : Message where
  id := "asm.bad_argument"
  english :=
    "invalid argument: %s"
  chinese :=
    "无效的参数: %s"

def labelTwice : Message where
  id := "asm.label_twice"
  english :=
    "label %s visited twice"
  chinese :=
    "标签 %s 被访问了两次"

def badElement : Message where
  id := "asm.bad_annotation"
  english :=
    "value of type %T is not a valid annotation element"
  chinese :=
    "类型 %T 的值不能作为注解元素"

def poolTooLarge : Message where
  id := "asm.pool_too_large"
  english :=
    "constant pool has more than 65535 entries"
  chinese :=
    "常量池超过 65535 项"

def typeTableTooLarge : Message where
  id := "asm.type_table_too_large"
  english :=
    "frame type table has more than 1048575 entries"
  chinese :=
    "帧类型表超过 1048575 项"

def codeTooLarge : Message where
  id := "asm.code_too_large"
  english :=
    "code of method %s%s is %d bytes, limit is 65535"
  chinese :=
    "方法 %s%s 的代码为 %d 字节，上限为 65535"

def utf8TooLong : Message where
  id := "asm.utf8_too_long"
  english :=
    "encoded string is %d bytes, limit is 65535"
  chinese :=
    "编码后的字符串为 %d 字节，上限为 65535"

def frameTooLarge : Message where
  id := "asm.frame_too_large"
  english :=
    "method %s%s needs %s %d, limit is 65535"
  chinese :=
    "方法 %s%s 需要的 %s 为 %d，上限为 65535"

def jsrFrames : Message where
  id := "asm.jsr_frames"
  english :=
    "JSR/RET cannot be analyzed when computing frames"
  chinese :=
    "计算帧时无法分析 JSR/RET"

def commonSuper : Message where
  id := "asm.common_super"
  english :=
    "no common super class for %s and %s"
  chinese :=
    "无法确定 %s 和 %s 的公共父类"

def sizeMismatch : Message where
  id := "asm.size_mismatch"
  english :=
    "predicted class size %d, wrote %d bytes"
  chinese :=
    "预测类大小 %d，实际写出 %d 字节"

def widenStalled : Message where
  id := "asm.widen_stalled"
  english :=
    "method %s%s still has unresolved wide jumps after %d passes"
  chinese :=
    "方法 %s%s 经过 %d 轮后仍有未加宽的跳转"

/-! ## Advice -/

def hintVersion : Message where
  id := "hint.version"
  english :=
    "class versions 45 (JDK 1.1) through 52 (Java 8) are supported"
  chinese :=
    "支持的类版本为 45 (JDK 1.1) 到 52 (Java 8)"

def hintVisitCode : Message where
  id := "hint.visit_code"
  english :=
    "call VisitCode before the first instruction"
  chinese :=
    "在第一条指令之前调用 VisitCode"

def hintSplitMethod : Message where
  id := "hint.split_method"
  english :=
    "split the method into smaller methods"
  chinese :=
    "把方法拆分成多个较小的方法"

def hintJsrFrames : Message where
  id := "hint.jsr_frames"
  english :=
    "inline the subroutines or compute maxs only"
  chinese :=
    "内联子程序，或只计算 maxs"

def hintHierarchy : Message where
  id := "hint.hierarchy"
  english :=
    "pass WithClassHierarchy or list the types under [hierarchy] in the config"
  chinese :=
    "传入 WithClassHierarchy，或在配置的 [hierarchy] 中列出这些类型"

/-! ## Class sources -/

def sourceFormat : Message where
  id := "source.format"
  english :=
    "unsupported class source format %q"
  chinese :=
    "不支持的类源文件格式 %q"

def sourceInsn : Message where
  id := "source.insn"
  english :=
    "%s line %d: unknown instruction %q"
  chinese :=
    "%s 第 %d 行: 未知指令 %q"

def sourceOperand : Message where
  id := "source.operand"
  english :=
    "%s line %d: %s"
  chinese :=
    "%s 第 %d 行: %s"

def sourceNoLabel : Message where
  id := "source.no_label"
  english :=
    "%s line %d: undefined label %q"
  chinese :=
    "%s 第 %d 行: 未定义的标签 %q"

def sourceNoName : Message where
  id := "source.no_name"
  english :=
    "class source has no name"
  chinese :=
    "类源文件缺少类名"

/-! ## The command line -/

def cliUsage : Message where
  id := "cli.usage"
  english :=
    "jvmasm - JVM class file assembler\n"
      ++ "\n"
      ++ "Usage:\n"
      ++ "  jvmasm [--lang en|zh] [-config file] <command> [arguments]\n"
      ++ "\n"
      ++ "Commands:\n"
      ++ "  build <file...>        assemble .toml/.yaml class sources into .class files\n"
      ++ "  hello                  write the Example.class hello world program\n"
      ++ "  dump [-json] <file>    decode a class file and print a summary\n"
      ++ "  version                print the version\n"
      ++ "  help                   print this help\n"
  chinese :=
    "jvmasm - JVM 类文件汇编器\n"
      ++ "\n"
      ++ "用法:\n"
      ++ "  jvmasm [--lang en|zh] [-config 文件] <命令> [参数]\n"
      ++ "\n"
      ++ "命令:\n"
      ++ "  build <文件...>        把 .toml/.yaml 类源文件汇编成 .class 文件\n"
      ++ "  hello                  生成 Example.class 示例程序\n"
      ++ "  dump [-json] <文件>    解析类文件并打印摘要\n"
      ++ "  version                显示版本\n"
      ++ "  help                   显示帮助\n"

def cliWrote : Message where
  id := "cli.wrote"
  english :=
    "wrote %s (%d bytes)"
  chinese :=
    "已写出 %s (%d 字节)"

def cliNoInput : Message where
  id := "cli.no_input"
  english :=
    "no input files"
  chinese :=
    "没有输入文件"

def cliUnknownCommand : Message where
  id := "cli.unknown_command"
  english :=
    "unknown command: %s"
  chinese :=
    "未知命令: %s"

def cliBuildFailed : Message where
  id := "cli.build_failed"
  english :=
    "%d of %d class sources failed"
  chinese :=
    "%d/%d 个类源文件失败"

def cliConfigFailed : Message where
  id := "cli.config_failed"
  english :=
    "failed to load config: %v"
  chinese :=
    "加载配置失败: %v"

def cliVersion : Message where
  id := "cli.version"
  english :=
    "jvmasm %s - JVM class file assembler (class versions 45-52)"
  chinese :=
    "jvmasm %s - JVM 类文件汇编器（类版本 45-52）"

def cliOptOutput : Message where
  id := "cli.opt_output"
  english :=
    "output directory"
  chinese :=
    "输出目录"

def cliOptCompute : Message where
  id := "cli.opt_compute"
  english :=
    "compute mode: nothing, maxs or frames"
  chinese :=
    "计算模式: nothing, maxs 或 frames"

def cliOptJson : Message where
  id := "cli.opt_json"
  english :=
    "print the summary as JSON"
  chinese :=
    "以 JSON 输出摘要"

def cliUsageBuild : Message where
  id := "cli.usage_build"
  english :=
    "Usage: jvmasm build [options] <file...>"
  chinese :=
    "用法: jvmasm build [选项] <文件...>"

def cliUsageHello : Message where
  id := "cli.usage_hello"
  english :=
    "Usage: jvmasm hello [options]"
  chinese :=
    "用法: jvmasm hello [选项]"

def cliUsageDump : Message where
  id := "cli.usage_dump"
  english :=
    "Usage: jvmasm dump [-json] <file.class>"
  chinese :=
    "用法: jvmasm dump [-json] <文件.class>"

def catalog : List Message := [
  badApi, badVersion, badConstant, insnBeforeCode, visitAfterEnd, duplicateFrame,
  unresolvedLabel, maxsTwice, badArgument, labelTwice, badElement, poolTooLarge,
  typeTableTooLarge, codeTooLarge, utf8TooLong, frameTooLarge, jsrFrames, commonSuper,
  sizeMismatch, widenStalled, hintVersion, hintVisitCode, hintSplitMethod, hintJsrFrames,
  hintHierarchy, sourceFormat, sourceInsn, sourceOperand, sourceNoLabel, sourceNoName, cliUsage,
  cliWrote, cliNoInput, cliUnknownCommand, cliBuildFailed, cliConfigFailed, cliVersion,
  cliOptOutput, cliOptCompute, cliOptJson, cliUsageBuild, cliUsageHello, cliUsageDump]

def wording (m : Message) : Language → String
  | .english => m.english
  | .chinese => m.chinese

def ofId? (id : Text) : Option Message := catalog.find? fun m => Text.ofString m.id = id

end Message

namespace Language

def tag : Language → String
  | english => "en"
  | chinese => "zh"

def ofTag? (t : Text) : Option Language :=
  [english, chinese].find? fun l => Text.ofString l.tag = t

end Language

end ClassAssembler
