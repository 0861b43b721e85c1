import ClassAssembler.Config.Basic
import ClassAssembler.Yaml.Written

/-!
# Writing configurations

A configuration is written as a file that can be edited by hand: in TOML with a comment on every
setting, in YAML with one line per setting.
-/

namespace ClassAssembler

namespace Config

def tomlText (key : String) (t : Text) : Text :=
  Text.ofString key ++ Text.ofString " = " ++ t.quoted ++ [10]

def truthWord (b : Bool) : Text := Text.ofString (if b then "true" else "false")

def toToml (c : Config) : Text :=
  Text.ofString "# .class 文件输出目录\n" ++ tomlText "output_dir" c.outputDir
    ++ "\n# 计算模式：nothing, maxs, frames\n" ++ tomlText "compute" c.compute
    ++ "\n# 日志级别：debug, info, warn, error\n" ++ tomlText "log_level" c.logLevel
    ++ "development = " ++ truthWord c.development
    ++ "\n\n# 帧计算时当作接口的类型\ninterfaces = ["
    ++ Text.join ", " (c.interfaces.map Text.quoted)
    ++ "]\n\n# 类内部名 = 父类内部名\n[hierarchy]\n"
    ++ c.hierarchy.flatMap fun (name, super) =>
      name.quoted ++ Text.ofString " = " ++ super.quoted ++ [10]

def yamlText (key : String) (t : Text) : Text := Yaml.entry 0 (Text.ofString key) t

def toYaml (c : Config) : Text :=
  yamlText "output_dir" c.outputDir ++ yamlText "compute" c.compute
    ++ yamlText "log_level" c.logLevel
    ++ Text.ofString "development: " ++ truthWord c.development ++ [10]
    ++ (if c.interfaces.isEmpty then Text.ofString "interfaces: []\n"
      else Text.ofString "interfaces:\n" ++ c.interfaces.flatMap (Yaml.item 4))
    ++ (if c.hierarchy.isEmpty then Text.ofString "hierarchy: \x7b\x7d\n"
      else
        Text.ofString "hierarchy:\n" ++ (Yaml.inOrder c.hierarchy).flatMap fun (name, super) =>
          Yaml.entry 4 name super)

def toText (c : Config) : DocumentFormat → Text
  | .toml => c.toToml
  | .yaml => c.toYaml

end Config

end ClassAssembler
