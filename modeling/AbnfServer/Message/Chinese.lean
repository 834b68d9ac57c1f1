-- The messages in simplified Chinese.
import AbnfServer.Message.Catalog

namespace AbnfServer.Catalog

/-- The messages in simplified Chinese. -/
def chinese : Catalog where
  describe
    | .alpha => "字母字符 (A-Z, a-z)"
    | .bit => "二进制位 (0 或 1)"
    | .char => "7位ASCII字符 (排除NUL)"
    | .cr => "回车符"
    | .crlf => "Internet 标准换行符"
    | .ctl => "控制字符"
    | .digit => "数字字符 (0-9)"
    | .dquote => "双引号字符"
    | .hexdig => "十六进制数字字符 (0-9, A-F)"
    | .htab => "水平制表符"
    | .lf => "换行符"
    | .lwsp => "线性空白字符 (谨慎使用)"
    | .octet => "8位数据"
    | .sp => "空格字符"
    | .vchar => "可见(可打印)字符"
    | .wsp => "空白字符 (空格或制表符)"
  coreRuleTitle := "ABNF核心规则"
  userRuleTitle := "ABNF规则"
  userRuleHint := "点击查看定义，或使用 F2 重命名。"
  definitionLabel := "定义"
  sourceLabel := "来源"
  source := "RFC 5234"
  invalidRuleName := "无效的规则名称。规则名称必须以字母开头，只能包含字母、数字和连字符。"
  ruleNotDefined := "规则 \"\x7b0\x7d\" 未定义"
  renameFailed := "重命名失败: \x7b0\x7d"
  abnfRule := "ABNF 规则"

end AbnfServer.Catalog
